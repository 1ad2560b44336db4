import StructLang.Proofs.Flat.Effects
import StructLang.Proofs.Simulation

/-!
# Values of flat code

Which machine words stand for the scalar values of a program without floats, by type, that memory keeps
them, and that the operations of flat code do on them what the operators of a program mean.
-/

namespace StructLang.Flat

open scoped CoreNumbers

open Meaning (Failure)

/-- How failures show up when flat code runs. -/
inductive Shows : Failure → Fault → Prop where
  | divisionByZero : Shows .divisionByZero .divisionByZero
  | callDepth : Shows .callDepth .callDepth
  | noReturn {func} : Shows (.noReturn func) (.halted func)

def bridge : Bridge Fault Machine := ⟨Shows, Machine.Small⟩

/-- A machine word stands for a value of a type that is neither a float nor a struct. -/
inductive Stands : Ty → Meaning.Value → Int64 → Prop where
  | void : Stands .void .unit 0
  | bool {b : Bool} : Stands .bool (.bool b) (if b then 1 else 0)
  | i32 {v} (h : v.toInt32.toInt64 = v) : Stands .i32 (.int v) v
  | i64 {v} : Stands .i64 (.int v) v
  | text {x} : Stands .string .text x

theorem Stands.isStruct_eq_false (h : Stands ty v x) : ty.isStruct = false := by
  cases h <;> rfl

theorem Stands.fit_eq (h : Stands ty v x) (hc : Class.ofSource ty = .ok cls) : fit x cls = x := by
  cases h with
  | void => cases hc
  | @bool b =>
    cases hc
    cases b <;> rfl
  | i32 h =>
    cases hc
    exact h
  | i64 | text =>
    cases hc
    rfl

theorem Stands.of_isInt (h : Stands ty v x) (hty : ty.isInt = true) : v = .int x := by
  cases h <;> first | rfl | cases hty

theorem stands_wrap (h : ty.isInt = true) (y : Int64) :
    Stands ty (.int (Meaning.wrap ty y)) (Meaning.wrap ty y) := by
  cases ty with
  | i32 => exact .i32 (by simp [Meaning.wrap])
  | i64 => exact .i64
  | _ => cases h

theorem fit_ofSource (hc : Class.ofSource ty = .ok cls) (h : ty.isInt = true) (y : Int64) :
    fit y cls = Meaning.wrap ty y := by
  cases ty <;> cases h <;> cases hc <;> rfl

/-! ## Bytes of words -/

theorem ofLittleEndian_littleEndian (width n : Nat) :
    ofLittleEndian (littleEndian width n) = n % 256 ^ width := by
  induction width generalizing n with
  | zero => simp [littleEndian, ofLittleEndian, Nat.mod_one]
  | succ width ih =>
    have hbyte : (UInt8.ofNat n).toNat = n % 256 := by simp
    rw [littleEndian, ofLittleEndian, ih, hbyte, Nat.pow_succ, Nat.mul_comm (256 ^ width), Nat.mod_mul]

theorem toInt32_ofNat (x : Int64) : (UInt32.ofNat x.toUInt64.toNat).toInt32 = x.toInt32 := by
  refine Int32.toBitVec_inj.mp ?_
  rw [Int64.toBitVec_toInt32, BitVec.signExtend_eq_setWidth_of_le _ (by decide)]
  rfl

theorem Stands.decode_encode (h : Stands ty v x) (hc : Class.ofSource ty = .ok cls) :
    ∃ bytes, cls.encode (.int x) = .ok bytes ∧ cls.decode bytes = .int x := by
  have hword : Class.word.decode (littleEndian 4 x.toUInt64.toNat) = .int x.toInt32.toInt64 := by
    have hmod : UInt32.ofNat (x.toUInt64.toNat % 256 ^ (4 : Nat)) = UInt32.ofNat x.toUInt64.toNat :=
      UInt32.toNat_inj.mp (by simp)
    rw [Class.decode, ofLittleEndian_littleEndian, hmod, toInt32_ofNat]
  have hlong : Class.long.decode (littleEndian 8 x.toUInt64.toNat) = .int x := by
    have hlt := x.toUInt64.toNat_lt
    rw [Class.decode, ofLittleEndian_littleEndian, Nat.mod_eq_of_lt (by omega), UInt64.ofNat_toNat]
    rfl
  have hfit := h.fit_eq hc
  cases h with
  | void => cases hc
  | bool | i32 =>
    cases hc
    exact ⟨_, rfl, hword.trans (congrArg Value.int hfit)⟩
  | i64 | text =>
    cases hc
    exact ⟨_, rfl, hlong⟩

/-! ## Operators -/

theorem intArith_agrees {o : Op} (hc : op.isComparison = false) (hty : ty.isInt = true)
    (hcls : Class.ofSource ty = .ok cls) (ho : Op.ofSource op ty = .ok o) (a b : Int64) :
    bridge.Agrees (Meaning.intArith op ty a b) (intArith o cls a b)
      (fun x y => x = Meaning.wrap ty y) := by
  have hdiv : ∀ x : Int64, bridge.Agrees
      (if b = 0 then .error .divisionByZero else .ok (Meaning.wrap ty x))
      (if b = 0 then .error .divisionByZero else .ok x) (fun x y => x = Meaning.wrap ty y) := by
    intro x
    split
    · exact Shows.divisionByZero
    · rfl
  cases ty <;> cases hty <;> cases hcls <;> cases op <;> cases hc <;> cases ho <;>
    first | rfl | exact hdiv _

def StandsAs (ty : Ty) (v : Meaning.Value) (w : Value) : Prop := ∃ x, w = .int x ∧ Stands ty v x

theorem arith_agrees {o : Op} (hc : op.isComparison = false) (hty : ty.isInt = true)
    (hcls : Class.ofSource ty = .ok cls) (ho : Op.ofSource op ty = .ok o) (h : Stands ty v x)
    (h' : Stands ty v' x') (memory : Memory) :
    bridge.Agrees (Meaning.arith op ty v v') (apply memory cls o [.int x, .int x'])
      (StandsAs ty) := by
  have happly : apply memory cls o [.int x, .int x'] = arith o cls (.int x) (.int x') := by
    cases ty <;> cases hty <;> cases op <;> cases hc <;> cases ho <;> rfl
  have harith : arith o cls (.int x) (.int x') = do
      return .int (fit (← intArith o cls (fit x cls) (fit x' cls)) cls) := by
    cases ty <;> cases hty <;> cases hcls <;> rfl
  rw [happly, harith, h.fit_eq hcls, h'.fit_eq hcls]
  obtain rfl := h.of_isInt hty
  obtain rfl := h'.of_isInt hty
  have hab := intArith_agrees hc hty hcls ho x x'
  simp only [Meaning.arith]
  cases hr : Meaning.intArith op ty x x' <;> cases hr' : intArith o cls x x' <;> rw [hr, hr'] at hab
  · exact hab
  · exact hab.elim
  · exact hab.elim
  · next a b =>
    obtain rfl : a = Meaning.wrap ty b := hab
    refine ⟨_, rfl, ?_⟩
    rw [fit_ofSource hcls hty]
    exact stands_wrap hty b

theorem intCompare_eq {cond : Cond} (hc : op.isComparison = true) (hty : ty.isFloat = false)
    (hcond : Cond.ofSource op ty = .ok cond) (a b : Int64) :
    intCompare cond a b = .ok (Meaning.intCompare op a b) := by
  unfold Cond.ofSource at hcond
  rw [hty] at hcond
  cases op <;> cases hc <;> cases hcond <;> rfl

theorem compare_eq {cond : Cond} (hc : op.isComparison = true)
    (hop : Typing.meets ty (Typing.binaryDemand op) = true) (hcls : Class.ofSource ty = .ok cls)
    (hcond : Cond.ofSource op ty = .ok cond) (h : Stands ty v x) (h' : Stands ty v' x')
    (memory : Memory) :
    apply memory .word (.compare cond cls) [.int x, .int x'] =
      .ok (.int (if Meaning.compare op v v' then 1 else 0)) := by
  have hfit := h.fit_eq hcls
  have hfit' := h'.fit_eq hcls
  have hcompare : cls.isFloat = false → ty.isFloat = false →
      apply memory .word (.compare cond cls) [.int x, .int x'] =
        .ok (.ofBool (Meaning.intCompare op x x')) := by
    intro hfloat hty
    change compare cond cls (.int x) (.int x') = _
    rw [compare, if_neg (by simp [hfloat])]
    change (do return Value.ofBool (← intCompare cond (fit x cls) (fit x' cls))) = _
    rw [hfit, hfit', intCompare_eq hc hty hcond]
    rfl
  cases h with
  | void | text => cases op <;> cases hc <;> cases hop
  | @bool b =>
    cases h' with
    | @bool b' =>
      cases hcls
      rw [hcompare rfl rfl]
      -- truth values are compared as the numbers zero and one
      cases op <;> cases hc <;> cases hop <;> cases b <;> cases b' <;> rfl
  | i32 | i64 =>
    cases h'
    cases hcls
    rw [hcompare rfl rfl]
    rfl

theorem evals_one (h : eval m temps o = .ok w) : [o].mapM (eval m temps) = .ok [w] :=
  mapM_eq_ok_iff.mpr (.cons h .nil)

theorem evals_two (h : eval m temps o = .ok w) (h' : eval m temps o' = .ok w') :
    [o, o'].mapM (eval m temps) = .ok [w, w'] :=
  mapM_eq_ok_iff.mpr (.cons h (.cons h' .nil))

theorem unaryOp_eq {op : UnaryOp} (hop : Typing.meets ty (Typing.unaryDemand op) = true)
    (hcls : Class.ofSource ty = .ok cls) (hx : eval m temps o = .ok (.int x)) (h : Stands ty v x)
    (memory : Memory) :
    ∃ ws w, (unaryOp op o).2.mapM (eval m temps) = .ok ws ∧
      apply memory cls (unaryOp op o).1 ws = .ok (.int w) ∧ Stands ty (Meaning.unary op ty v) w := by
  have hfit := h.fit_eq hcls
  cases op with
  | neg =>
    refine ⟨[.int x], fit (-x) cls, evals_one hx, rfl, ?_⟩
    have hty : ty.isInt = true := by
      rcases (show ty.isInt = true ∨ ty.isFloat = true by
        simpa [Typing.meets, Typing.unaryDemand, Ty.isNumber] using hop) with hty | hty
      · exact hty
      · cases h <;> cases hty
    obtain rfl := h.of_isInt hty
    rw [fit_ofSource hcls hty]
    exact stands_wrap hty _
  | not =>
    obtain rfl : ty = .bool := by simpa [Typing.meets, Typing.unaryDemand] using hop
    cases hcls
    cases h with
    | @bool b =>
      refine ⟨[.int (if b then 1 else 0), .int 1], if !b then 1 else 0,
        evals_two hx rfl, ?_, .bool⟩
      cases b <;> rfl
  | bitNot =>
    have hty : ty.isInt = true := hop
    obtain rfl := h.of_isInt hty
    have hones : fit (-1) cls = -1 := by cases ty <;> cases hty <;> cases hcls <;> rfl
    refine ⟨[.int x, .int (-1)], fit (fit x cls ^^^ fit (-1) cls) cls,
      evals_two hx rfl, ?_, ?_⟩
    · cases ty <;> cases hty <;> cases hcls <;> rfl
    · rw [hfit, hones, fit_ofSource hcls hty]
      exact stands_wrap hty _

theorem castOp_eq {op : Op} (hne : source ≠ target) (hcast : source.castsTo target = true)
    (hfloat : target.isFloat = false) (hop : castOp o source target = .ok (cls, op, args))
    (hx : eval m temps o = .ok (.int x)) (h : Stands source v x) (memory : Memory) :
    ∃ ws w, args.mapM (eval m temps) = .ok ws ∧ apply memory cls op ws = .ok (.int w) ∧
      Stands target (Meaning.convert target v) w := by
  have hone := evals_one hx
  have htwo : [o, .int 0].mapM (eval m temps) = .ok [.int x, .int 0] := evals_two hx rfl
  cases h with
  | void | text => cases target <;> cases hcast
  | @bool b =>
    cases target <;> cases hcast <;> cases hop
    · refine ⟨_, if b then 1 else 0, hone, ?_, ?_⟩
      · cases b <;> rfl
      · cases b <;> exact .i32 rfl
    · refine ⟨_, if b then 1 else 0, hone, ?_, .i64⟩
      cases b <;> rfl
  | i32 h =>
    cases target <;> cases hcast <;> cases hfloat <;> cases hop
    · refine ⟨_, if x != 0 then 1 else 0, htwo, ?_, .bool⟩
      change Except.ok (Value.ofBool (fit x .word != fit 0 .word)) = _
      rw [show fit x .word = x from h]
      rfl
    · refine ⟨_, x.toInt32.toInt64, hone, rfl, ?_⟩
      rw [h]
      exact .i64
  | i64 =>
    cases target <;> cases hcast <;> cases hfloat <;> cases hop
    · exact ⟨_, if x != 0 then 1 else 0, htwo, rfl, .bool⟩
    · exact ⟨_, _, hone, rfl, stands_wrap rfl _⟩

end StructLang.Flat
