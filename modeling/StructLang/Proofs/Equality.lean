import StructLang.Flat.Lower
import StructLang.Flat.Run
import StructLang.Ssa.Lower
import StructLang.Ssa.Value
import StructLang.Typing.Infer

/-!
# Equality and inequality

What `==` and `!=` give in both kinds of code, for operands of every type that they accept. SSA code
compares floats by ordered predicates, which do not hold of a NaN, so there `!=` is not the negation of
`==` if an operand is a NaN; in flat code it always is.
-/

namespace StructLang

namespace Ssa

/-- Comparing two values of a source type gives this truth value. -/
def Compares (op : BinaryOp) (ty : StructLang.Ty) (l r : Value) (b : Bool) : Prop :=
  ∃ t pred, Ty.ofSource ty = .ok t ∧ Predicate.ofSource op t = .ok pred ∧
    compare pred l r = .ok (.ofBool b)

def Value.isNaN : Value → Bool
  | .float v => v.isNaN
  | _ => false

theorem compares_floats (hty : ty.isFloat = true) (a b : Binary64) :
    Compares .eq ty (.float a) (.float b) (a.eq b) ∧
      Compares .ne ty (.float a) (.float b) (!a.eq b && !(a.isNaN || b.isNaN)) := by
  rw [Bool.not_or, ← Bool.and_assoc]
  cases ty <;> cases hty <;> exact ⟨⟨_, .oeq, rfl, rfl, rfl⟩, ⟨_, .one, rfl, rfl, rfl⟩⟩

theorem compares_ints (hty : (ty == .bool || ty.isInt) = true) (a b : Int64) :
    Compares .eq ty (.int a) (.int b) (a == b) ∧ Compares .ne ty (.int a) (.int b) (!(a == b)) := by
  cases ty <;> cases hty <;> exact ⟨⟨_, .eq, rfl, rfl, rfl⟩, ⟨_, .ne, rfl, rfl, rfl⟩⟩

end Ssa

namespace Flat

def Compares (op : BinaryOp) (ty : Ty) (l r : Value) (b : Bool) : Prop :=
  ∃ cls cond, Class.ofSource ty = .ok cls ∧ Cond.ofSource op ty = .ok cond ∧
    ∀ memory, apply memory .word (.compare cond cls) [l, r] = .ok (.ofBool b)

theorem compares_floats (hty : ty.isFloat = true) (hl : l.asFloat = .ok a)
    (hr : r.asFloat = .ok b) : Compares .eq ty l r (a.eq b) ∧ Compares .ne ty l r (!a.eq b) := by
  have happly {cond : Cond} {cls : Class} {c : Bool} (hcls : cls.isFloat = true)
      (hc : floatCompare cond a b = .ok c) (memory : Memory) :
      apply memory .word (.compare cond cls) [l, r] = .ok (.ofBool c) := by
    simp [apply, both, compare, hcls, hl, hr, hc, bind, Except.bind, pure, Except.pure]
  cases ty <;> cases hty <;>
    exact ⟨⟨_, .eq, rfl, rfl, happly rfl rfl⟩, ⟨_, .ne, rfl, rfl, happly rfl rfl⟩⟩

theorem compares_ints (hty : (ty == .bool || ty.isInt) = true)
    (hcls : Class.ofSource ty = .ok cls) (ha : fit a cls = a) (hb : fit b cls = b) :
    Compares .eq ty (.int a) (.int b) (a == b) ∧ Compares .ne ty (.int a) (.int b) (!(a == b)) := by
  have hint : cls.isFloat = false := by cases ty <;> cases hty <;> cases hcls <;> rfl
  have happly {cond : Cond} {c : Bool} (hc : intCompare cond a b = .ok c) (memory : Memory) :
      apply memory .word (.compare cond cls) [.int a, .int b] = .ok (.ofBool c) := by
    simp [apply, both, compare, Value.asInt, hint, ha, hb, hc, bind, Except.bind, pure, Except.pure]
  have hcond : Cond.ofSource .eq ty = .ok .eq ∧ Cond.ofSource .ne ty = .ok .ne := by
    cases ty <;> cases hty <;> exact ⟨rfl, rfl⟩
  exact ⟨⟨cls, .eq, hcls, hcond.1, happly rfl⟩, ⟨cls, .ne, hcls, hcond.2, happly rfl⟩⟩

end Flat

/-- A scalar as running SSA code and running flat code hold it. -/
inductive Held : Ty → Ssa.Value → Flat.Value → Prop where
  | bool {b : Bool} : Held .bool (.int (if b then 1 else 0)) (.int (if b then 1 else 0))
  | i32 {v : Int32} : Held .i32 (.int v.toInt64) (.int v.toInt64)
  | i64 {v} : Held .i64 (.int v) (.int v)
  | f32 {v : Binary32} : Held .f32 (.float v.toBinary64) (.single v)
  | f64 {v} : Held .f64 (.float v) (.double v)

namespace Held

theorem of_isFloat (h : Held ty x y) (hty : ty.isFloat = true) :
    ∃ v, x = .float v ∧ y.asFloat = .ok v := by
  cases h <;> cases hty <;> exact ⟨_, rfl, rfl⟩

theorem of_isInt (h : Held ty x y) (hty : (ty == .bool || ty.isInt) = true) :
    ∃ v cls, x = .int v ∧ y = .int v ∧ Flat.Class.ofSource ty = .ok cls ∧ Flat.fit v cls = v := by
  cases h with
  | @bool b => exact ⟨_, _, rfl, rfl, rfl, by cases b <;> rfl⟩
  | i32 => exact ⟨_, _, rfl, rfl, rfl, congrArg Int32.toInt64 (Int32.toInt32_toInt64 _)⟩
  | i64 => exact ⟨_, _, rfl, rfl, rfl, rfl⟩
  | f32 | f64 => cases hty

end Held

/-- The operators `==` and `!=` accept the same types, those of scalars. On two operands both kinds of code
agree on `==`; flat code gives the negation for `!=`, and SSA code gives it unless an operand is a NaN:
then both `==` and `!=` are false there. -/
theorem inequality_negates_equality (ty : Ty) :
    Typing.meets ty (Typing.binaryDemand .eq) = Typing.meets ty (Typing.binaryDemand .ne) ∧
    (Typing.meets ty (Typing.binaryDemand .ne) = true ↔ ∃ x y, Held ty x y) ∧
    ∀ x y x' y', Held ty x y → Held ty x' y' → ∃ equal : Bool,
      Ssa.Compares .eq ty x x' equal ∧ Flat.Compares .eq ty y y' equal ∧
      Flat.Compares .ne ty y y' (!equal) ∧
      Ssa.Compares .ne ty x x' (!equal && !(x.isNaN || x'.isNaN)) ∧
      ((x.isNaN || x'.isNaN) = true → equal = false) := by
  refine ⟨rfl, ⟨fun h => ?_, ?_⟩, fun x y x' y' h h' => ?_⟩
  · cases ty with
    | bool => exact ⟨_, _, .bool (b := true)⟩
    | i32 => exact ⟨_, _, .i32 (v := 0)⟩
    | i64 => exact ⟨_, _, .i64 (v := 0)⟩
    | f32 => exact ⟨_, _, .f32 (v := ⟨0⟩)⟩
    | f64 => exact ⟨_, _, .f64 (v := ⟨0⟩)⟩
    | _ => cases h
  · rintro ⟨_, _, h⟩
    cases h <;> rfl
  · cases hfloat : ty.isFloat with
    | true =>
      obtain ⟨a, rfl, ha⟩ := h.of_isFloat hfloat
      obtain ⟨b, rfl, hb⟩ := h'.of_isFloat hfloat
      obtain ⟨heq, hne⟩ := Ssa.compares_floats hfloat a b
      obtain ⟨heq', hne'⟩ := Flat.compares_floats hfloat ha hb
      refine ⟨a.eq b, heq, heq', hne', hne, fun hnan => ?_⟩
      rcases Bool.or_eq_true_iff.mp hnan with hnan | hnan <;> simp_all [Binary64.eq, Ssa.Value.isNaN]
    | false =>
      have hty : (ty == .bool || ty.isInt) = true := by
        cases h with
        | f32 | f64 => cases hfloat
        | _ => rfl
      obtain ⟨a, cls, rfl, rfl, hcls, ha⟩ := h.of_isInt hty
      obtain ⟨b, cls', rfl, rfl, hcls', hb⟩ := h'.of_isInt hty
      cases hcls.symm.trans hcls'
      obtain ⟨heq, hne⟩ := Ssa.compares_ints hty a b
      obtain ⟨heq', hne'⟩ := Flat.compares_ints hty hcls ha hb
      exact ⟨a == b, heq, heq', hne', by simpa [Ssa.Value.isNaN] using hne, fun hnan => by cases hnan⟩

/-- A NaN is neither equal nor unequal to itself in SSA code, and unequal in flat code. -/
theorem inequality_negates_equality_nan : ∃ x y, Held .f64 x y ∧
    Ssa.Compares .eq .f64 x x false ∧ Ssa.Compares .ne .f64 x x false ∧
    Flat.Compares .eq .f64 y y false ∧ Flat.Compares .ne .f64 y y true := by
  have hheld : Held .f64 (.float ⟨0x7ff8000000000000⟩) (.double ⟨0x7ff8000000000000⟩) := .f64
  obtain ⟨equal, heq, heq', hne', hne, hnan⟩ :=
    (inequality_negates_equality .f64).2.2 _ _ _ _ hheld hheld
  cases hnan (by decide +kernel)
  exact ⟨_, _, hheld, heq, hne, heq', hne'⟩

end StructLang
