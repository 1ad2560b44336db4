import StructLang.Proofs.Simulation
import StructLang.Proofs.Ssa.Totality
import StructLang.Ssa.Run

/-!
# Values of SSA code

Which values of running SSA code stand for the values of a program, by type, and that the operations of
SSA code do on them what the operators of a program mean.
-/

namespace StructLang.Ssa

open Meaning (Failure)

/-- How failures show up when SSA code runs. -/
inductive Shows : Failure → Fault → Prop where
  | divisionByZero : Shows .divisionByZero .divisionByZero
  | callDepth : Shows .callDepth .callDepth
  | noReturn {func} : Shows (.noReturn func) (.unreachable func)

def bridge : Bridge Fault Machine := ⟨Shows, fun _ => True⟩

theorem retains (x : Exec β) : bridge.Retains x := fun _ _ => True.intro

mutual

/-- A value of running SSA code stands for a value of a type. -/
inductive Stands (s : Symbols) : StructLang.Ty → Meaning.Value → Value → Prop where
  | void : Stands s .void .unit .null
  | bool {b : Bool} : Stands s .bool (.bool b) (.int (if b then 1 else 0))
  | i32 {v} (h : v.toInt32.toInt64 = v) : Stands s .i32 (.int v) (.int v)
  | i64 {v} : Stands s .i64 (.int v) (.int v)
  | f32 {v} : Stands s .f32 (.float v) (.float v)
  | f64 {v} : Stands s .f64 (.float v) (.float v)
  | text {v} : Stands s .string .text v
  | struct {name d vs ws} (hd : s.struct? name = some d)
      (h : StandAll s (d.fields.map TypedName.ty) vs ws) :
      Stands s (.struct name) (.record vs) (.aggregate ws)

inductive StandAll (s : Symbols) :
    List StructLang.Ty → List Meaning.Value → List Value → Prop where
  | nil : StandAll s [] [] []
  | cons {ty v w ts vs ws} (h : Stands s ty v w) (hs : StandAll s ts vs ws) :
      StandAll s (ty :: ts) (v :: vs) (w :: ws)

end

section

variable {s : Symbols}

theorem stands_wrap (h : ty.isInt = true) (v : Int64) :
    Stands s ty (.int (Meaning.wrap ty v)) (.int (Meaning.wrap ty v)) := by
  cases ty with
  | i32 => exact .i32 (by simp [Meaning.wrap])
  | i64 => exact .i64
  | _ => cases h

theorem stands_float (h : ty.isFloat = true) (v : Binary64) : Stands s ty (.float v) (.float v) := by
  cases ty with
  | f32 => exact .f32
  | f64 => exact .f64
  | _ => cases h

theorem wrap_ofSource (ht : Ty.ofSource ty = .ok t) (h : ty.isInt = true) (v : Int64) :
    wrap v t = Meaning.wrap ty v := by
  cases ty <;> cases h <;> cases ht <;> rfl

theorem round_ofSource (ht : Ty.ofSource ty = .ok t) (h : ty.isFloat = true) (v : Binary64) :
    round v t = Meaning.narrow ty v := by
  cases ty <;> cases h <;> cases ht <;> rfl

theorem Stands.of_isInt (h : Stands s ty v w) (hty : ty.isInt = true) :
    ∃ a, v = .int a ∧ w = .int a := by
  cases h <;> first | exact ⟨_, rfl, rfl⟩ | cases hty

theorem Stands.of_isFloat (h : Stands s ty v w) (hty : ty.isFloat = true) :
    ∃ a, v = .float a ∧ w = .float a := by
  cases h <;> first | exact ⟨_, rfl, rfl⟩ | cases hty

/-! ## Operators -/

theorem isNumber_of_meets (hc : op.isComparison = false)
    (h : Typing.meets ty (Typing.binaryDemand op) = true) :
    ty.isInt = true ∨ ty.isFloat = true := by
  cases op <;> cases hc <;> cases ty <;> first | exact .inl rfl | exact .inr rfl | cases h

theorem intArith_agrees (hc : op.isComparison = false) (hty : ty.isInt = true)
    (ht : Ty.ofSource ty = .ok t) (ho : ArithOp.ofSource op t = .ok o) (a b : Int64) :
    bridge.Agrees (Meaning.intArith op ty a b) (intArith o t a b)
      (fun x y => x = Meaning.wrap ty y) := by
  have hdiv : ∀ x : Int64, bridge.Agrees
      (if b = 0 then .error .divisionByZero else .ok (Meaning.wrap ty x))
      (if b = 0 then .error .divisionByZero else .ok x) (fun x y => x = Meaning.wrap ty y) := by
    intro x
    split
    · exact Shows.divisionByZero
    · rfl
  cases ty <;> cases hty <;> cases ht <;> cases op <;> cases hc <;> cases ho <;>
    first | rfl | exact hdiv _

theorem floatArith_eq (hty : ty.isFloat = true) (ht : Ty.ofSource ty = .ok t)
    (ho : ArithOp.ofSource op t = .ok o) (a b : Binary64) :
    floatArith o a b = .ok (Meaning.floatArith op a b) := by
  cases ty <;> cases hty <;> cases ht <;> cases op <;> cases ho <;> rfl

theorem arith_agrees (hc : op.isComparison = false)
    (hop : Typing.meets ty (Typing.binaryDemand op) = true) (ht : Ty.ofSource ty = .ok t)
    (ho : ArithOp.ofSource op t = .ok o) (h : Stands s ty v w) (h' : Stands s ty v' w') :
    bridge.Agrees (Meaning.arith op ty v v') (arith o t w w') (Stands s ty) := by
  rcases isNumber_of_meets hc hop with hty | hty
  · obtain ⟨a, rfl, rfl⟩ := h.of_isInt hty
    obtain ⟨b, rfl, rfl⟩ := h'.of_isInt hty
    have hab := intArith_agrees hc hty ht ho a b
    simp only [Meaning.arith, arith]
    cases hr : Meaning.intArith op ty a b <;> cases hr' : intArith o t a b <;> rw [hr, hr'] at hab
    · exact hab
    · exact hab.elim
    · exact hab.elim
    · next x y =>
      obtain rfl : x = Meaning.wrap ty y := hab
      change Stands s ty _ (.int (wrap y t))
      rw [wrap_ofSource ht hty]
      exact stands_wrap hty y
  · obtain ⟨a, rfl, rfl⟩ := h.of_isFloat hty
    obtain ⟨b, rfl, rfl⟩ := h'.of_isFloat hty
    simp only [Meaning.arith, arith, floatArith_eq hty ht ho]
    change Stands s ty _ (.float (round _ t))
    rw [round_ofSource ht hty]
    exact stands_float hty _

theorem intCompare_eq (hc : op.isComparison = true) (ht : t.isInt = true)
    (hpred : Predicate.ofSource op t = .ok pred) (a b : Int64) :
    intCompare pred a b = .ok (Meaning.intCompare op a b) := by
  cases t <;> cases ht <;> cases op <;> cases hc <;> cases hpred <;> rfl

theorem floatCompare_eq (hc : op.isComparison = true) (ht : t.isFloat = true)
    (hpred : Predicate.ofSource op t = .ok pred) (a b : Binary64) :
    floatCompare pred a b = .ok (Meaning.floatCompare op a b) := by
  cases t <;> cases ht <;> cases op <;> cases hc <;> cases hpred <;> rfl

theorem compare_eq (hc : op.isComparison = true)
    (hop : Typing.meets ty (Typing.binaryDemand op) = true) (ht : Ty.ofSource ty = .ok t)
    (hpred : Predicate.ofSource op t = .ok pred) (h : Stands s ty v w) (h' : Stands s ty v' w') :
    compare pred w w' = .ok (Value.ofBool (Meaning.compare op v v')) := by
  cases h with
  | void | text | struct => cases op <;> cases hc <;> cases hop
  | @bool b =>
    cases h' with
    | @bool b' =>
      cases ht
      simp only [compare, intCompare_eq hc rfl hpred]
      -- truth values are compared as the numbers zero and one
      cases op <;> cases hc <;> cases hop <;> cases b <;> cases b' <;> rfl
  | i32 | i64 =>
    cases h'
    cases ht
    simp only [compare, intCompare_eq hc rfl hpred]
    rfl
  | f32 | f64 =>
    cases h'
    cases ht
    simp only [compare, floatCompare_eq hc rfl hpred]
    rfl

/-- A unary operator is arithmetic with a constant. -/
theorem unaryInstr_arith {op : UnaryOp} (hop : Typing.meets ty (Typing.unaryDemand op) = true)
    (ht : Ty.ofSource ty = .ok t) (hx : eval m args regs x = pure w) (h : Stands s ty v w)
    (r : Register) : ∃ o left right l l' w', unaryInstr op t x r = .arith r o t left right ∧
      eval m args regs left = pure l ∧ eval m args regs right = pure l' ∧
      arith o t l l' = .ok w' ∧ Stands s ty (Meaning.unary op ty v) w' := by
  cases op with
  | neg =>
    rcases (show ty.isInt = true ∨ ty.isFloat = true by
      simpa [Typing.meets, Typing.unaryDemand, StructLang.Ty.isNumber] using hop) with hty | hty
    · obtain ⟨a, rfl, rfl⟩ := h.of_isInt hty
      have hzero : wrap 0 t - a = -a := by
        rw [show wrap 0 t = 0 by cases ty <;> cases hty <;> cases ht <;> rfl, Int64.zero_sub]
      refine ⟨.sub, .int 0 t, x, .int (wrap 0 t), .int a, .int (wrap (wrap 0 t - a) t), ?_, rfl, hx,
        rfl, ?_⟩
      · cases ty <;> cases hty <;> cases ht <;> rfl
      · rw [hzero, wrap_ofSource ht hty]
        exact stands_wrap hty _
    · obtain ⟨a, rfl, rfl⟩ := h.of_isFloat hty
      have hzero : round .negZero t = .negZero := by
        cases ty <;> cases hty <;> cases ht <;> decide +kernel
      refine ⟨.fsub, .float .negZero t, x, .float (round .negZero t), .float a,
        .float (round ((round .negZero t).sub a) t), ?_, rfl, hx, rfl, ?_⟩
      · cases ty <;> cases hty <;> cases ht <;> rfl
      · rw [hzero, round_ofSource ht hty]
        exact stands_float hty _
  | not =>
    obtain rfl : ty = .bool := by simpa [Typing.meets, Typing.unaryDemand] using hop
    cases ht
    cases h with
    | @bool b =>
      refine ⟨.xor, x, .int 1 .i1, _, .int (wrap 1 .i1), .int (if !b then 1 else 0), rfl, hx, rfl,
        ?_, .bool⟩
      cases b <;> rfl
  | bitNot =>
    have hty : ty.isInt = true := hop
    obtain ⟨a, rfl, rfl⟩ := h.of_isInt hty
    have hones : wrap (-1) t = -1 := by cases ty <;> cases hty <;> cases ht <;> rfl
    refine ⟨.xor, x, .int (-1) t, .int a, .int (wrap (-1) t), .int (wrap (a ^^^ wrap (-1) t) t), rfl,
      hx, rfl, rfl, ?_⟩
    rw [hones, wrap_ofSource ht hty]
    exact stands_wrap hty _

/-- A conversion gives what the type of its target asks for. -/
theorem convert_eq {op : CastOp} (hne : source ≠ target) (hcast : source.castsTo target = true)
    (htest : ¬(source.isInt = true ∧ target = .bool)) (ht' : Ty.ofSource target = .ok t')
    (hop : CastOp.ofSource source target = .ok op) (h : Stands s source v w) :
    ∃ w', convert op t' w = .ok w' ∧ Stands s target (Meaning.convert target v) w' := by
  cases h with
  | void | text | struct => cases target <;> cases hcast
  | @bool b =>
    cases target <;> cases hcast <;> cases ht' <;> cases hop
    · refine ⟨.int (wrap (if b then 1 else 0) .i32), rfl, ?_⟩
      cases b <;> exact .i32 rfl
    · exact ⟨_, rfl, .i64⟩
  | i32 =>
    cases target <;> cases hcast <;> cases ht' <;> cases hop
    · exact absurd rfl hne
    · exact ⟨_, rfl, .i64⟩
    · exact ⟨_, rfl, .f32⟩
    · exact ⟨_, rfl, .f64⟩
  | i64 =>
    cases target <;> cases hcast <;> cases ht' <;> cases hop
    · exact ⟨_, rfl, stands_wrap rfl _⟩
    · exact absurd rfl hne
    · exact ⟨_, rfl, .f32⟩
    · exact ⟨_, rfl, .f64⟩
  | f32 =>
    cases target <;> cases hcast <;> cases ht' <;> cases hop
    · exact ⟨_, rfl, stands_wrap rfl _⟩
    · exact ⟨_, rfl, .i64⟩
    · exact ⟨_, rfl, .f64⟩
  | f64 =>
    cases target <;> cases hcast <;> cases ht' <;> cases hop
    · exact ⟨_, rfl, stands_wrap rfl _⟩
    · exact ⟨_, rfl, .i64⟩
    · exact ⟨_, rfl, .f32⟩

end

end StructLang.Ssa
