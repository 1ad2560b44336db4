import StructLang.Proofs.Lowering
import StructLang.Ssa.Check
import StructLang.Ssa.Run

/-!
# Types of values

Which values are of a type, and that the operations of SSA code give values of the types that they are
said to give. Addresses are typed apart from this: by the type of the cell that they lead into, down a
path of fields.
-/

namespace StructLang.Ssa

open scoped CoreNumbers

mutual

/-- The value is one of a type: a truth value is zero or one, a narrow integer is in its range, and a
struct value has the fields of its struct. -/
inductive HasTy (m : Module) : Ty → Value → Prop where
  | void : HasTy m .void .null
  | i1 {v : Int64} (h : v = 0 ∨ v = 1) : HasTy m .i1 (.int v)
  | i32 {v : Int64} (h : -2 ^ (31 : Nat) ≤ v.toInt ∧ v.toInt < 2 ^ (31 : Nat)) : HasTy m .i32 (.int v)
  | i64 {v : Int64} : HasTy m .i64 (.int v)
  | f32 {v : Binary64} : HasTy m .f32 (.float v)
  | f64 {v : Binary64} : HasTy m .f64 (.float v)
  | null : HasTy m .ptr .null
  | ptr {a : Address} : HasTy m .ptr (.ptr a)
  | struct {name : String} {d : Struct} {vs : List Value} (hd : m.struct? name = some d)
      (h : HaveTys m d.fields vs) : HasTy m (.struct name) (.aggregate vs)

inductive HaveTys (m : Module) : List Ty → List Value → Prop where
  | nil : HaveTys m [] []
  | cons {ty : Ty} {v : Value} {ts : List Ty} {vs : List Value} (h : HasTy m ty v)
      (hs : HaveTys m ts vs) : HaveTys m (ty :: ts) (v :: vs)

end

/-- Down a path of fields, a value of the first type has a part of the second. -/
inductive PathTo (m : Module) : Ty → List Nat → Ty → Prop where
  | nil {ty : Ty} : PathTo m ty [] ty
  | cons {name : String} {d : Struct} {i : Nat} {t ty : Ty} {path : List Nat}
      (hd : m.struct? name = some d) (hi : d.fields[i]? = some t) (h : PathTo m t path ty) :
      PathTo m (.struct name) (i :: path) ty

theorem PathTo.field (h : PathTo m whole path (.struct name)) (hd : m.struct? name = some d)
    (hi : d.fields[i]? = some ty) : PathTo m whole (path ++ [i]) ty := by
  generalize hs : Ty.struct name = s at h
  induction h with
  | nil =>
    subst hs
    exact .cons hd hi .nil
  | cons hd' hi' _ ih => exact .cons hd' hi' (ih hs)

namespace HaveTys

variable {i : Nat}

theorem getElem? (h : HaveTys m ts vs) (ht : ts[i]? = some ty) (hv : vs[i]? = some v) :
    HasTy m ty v := by
  induction i generalizing ts vs with
  | zero =>
    cases h with
    | nil => cases ht
    | cons h _ =>
      cases ht
      cases hv
      exact h
  | succ i ih =>
    cases h with
    | nil => cases ht
    | cons _ hs => exact ih hs ht hv

theorem set (h : HaveTys m ts vs) (ht : ts[i]? = some ty) (hv : HasTy m ty v) :
    HaveTys m ts (vs.set i v) := by
  induction i generalizing ts vs with
  | zero =>
    cases h with
    | nil => cases ht
    | cons _ hs =>
      cases ht
      exact .cons hv hs
  | succ i ih =>
    cases h with
    | nil => cases ht
    | cons h hs => exact .cons h (ih hs ht)

end HaveTys

theorem HasTy.get (h : HasTy m whole x) (hp : PathTo m whole path ty) (hv : x.get path = .ok v) :
    HasTy m ty v := by
  induction hp generalizing x with
  | nil =>
    cases hv
    exact h
  | @cons name d i t ty path hd hi _ ih =>
    cases h with
    | struct hd' hall =>
      cases hd.symm.trans hd'
      rw [Value.get] at hv
      split at hv
      · next w hw => exact ih (hall.getElem? hi hw) hv
      · cases hv

theorem HasTy.set (h : HasTy m whole x) (hp : PathTo m whole path ty) (hv : HasTy m ty v)
    (hw : Value.set v path x = .ok w) : HasTy m whole w := by
  induction hp generalizing x w with
  | nil =>
    cases hw
    exact hv
  | @cons name d i t ty path hd hi _ ih =>
    cases h with
    | struct hd' hall =>
      cases hd.symm.trans hd'
      rw [Value.set] at hw
      split at hw
      · next y hy =>
        obtain ⟨z, hz, hw⟩ := except_bind_eq_ok.mp hw
        cases hw
        exact .struct hd (hall.set hi (ih (hall.getElem? hi hy) hv hz))
      · cases hw

/-! ## Zero values -/

theorem haveTys_zeroFields {zero : Ty → Except (Stop Fault) Value}
    (hzero : ∀ ty v, zero ty = .ok v → HasTy m ty v) (h : zeroFields zero ts = .ok vs) :
    HaveTys m ts vs := by
  induction ts generalizing vs with
  | nil =>
    cases h
    exact .nil
  | cons ty ts ih =>
    obtain ⟨v, hv, h⟩ := except_bind_eq_ok.mp h
    obtain ⟨rest, hrest, h⟩ := except_bind_eq_ok.mp h
    cases h
    exact .cons (hzero ty v hv) (ih hrest)

theorem hasTy_zeroValue_scalar (hty : ∀ name, ty ≠ .struct name)
    (h : zeroValue m depth ty = .ok v) : HasTy m ty v := by
  cases ty with
  | i1 =>
    cases depth <;> cases h <;> exact .i1 (.inl rfl)
  | i32 =>
    cases depth <;> cases h <;> exact .i32 (by decide)
  | struct name => exact absurd rfl (hty name)
  | _ => cases depth <;> cases h <;> constructor

theorem hasTy_zeroValue (h : zeroValue m depth ty = .ok v) : HasTy m ty v := by
  induction depth generalizing ty v with
  | zero =>
    cases ty with
    | struct name =>
      rw [zeroValue] at h
      split at h <;> cases h
    | _ => exact hasTy_zeroValue_scalar nofun h
  | succ depth ih =>
    cases ty with
    | struct name =>
      rw [zeroValue] at h
      split at h
      · cases h
      · next d hd =>
        obtain ⟨vs, hvs, h⟩ := except_bind_eq_ok.mp h
        cases h
        exact .struct hd (haveTys_zeroFields (fun _ _ => ih) hvs)
    | _ => exact hasTy_zeroValue_scalar nofun h

/-! ## Operations -/

theorem wrap_i1 (v : Int64) : wrap v .i1 = 0 ∨ wrap v .i1 = 1 := by
  have h : (wrap v .i1).toBitVec.toNat = v.toBitVec.toNat % 2 := by
    simp only [wrap, Int64.toBitVec_and, BitVec.toNat_and]
    exact Nat.and_one_is_mod _
  rcases Nat.mod_two_eq_zero_or_one v.toBitVec.toNat with h' | h'
  · exact .inl (Int64.toBitVec_inj.mp (BitVec.eq_of_toNat_eq (h.trans h')))
  · exact .inr (Int64.toBitVec_inj.mp (BitVec.eq_of_toNat_eq (h.trans h')))

theorem wrap_i32 (v : Int64) : -2 ^ (31 : Nat) ≤ (wrap v .i32).toInt ∧ (wrap v .i32).toInt < 2 ^ (31 : Nat) := by
  rw [wrap, Int32.toInt_toInt64]
  exact ⟨Int32.le_toInt _, Int32.toInt_lt _⟩

theorem hasTy_wrap (h : ty.isInt = true) (v : Int64) : HasTy m ty (.int (wrap v ty)) := by
  cases ty with
  | i1 => exact .i1 (wrap_i1 v)
  | i32 => exact .i32 (wrap_i32 v)
  | i64 => exact .i64
  | _ => cases h

theorem hasTy_float (h : ty.isFloat = true) (v : Binary64) : HasTy m ty (.float v) := by
  cases ty with
  | f32 => exact .f32
  | f64 => exact .f64
  | _ => cases h

theorem HasTy.of_isInt (h : HasTy m ty v) (hty : ty.isInt = true) : ∃ a, v = .int a := by
  cases h <;> first | exact ⟨_, rfl⟩ | cases hty

theorem HasTy.of_isFloat (h : HasTy m ty v) (hty : ty.isFloat = true) : ∃ a, v = .float a := by
  cases h <;> first | exact ⟨_, rfl⟩ | cases hty

theorem hasTy_arith (hop : (if op.isFloat then ty.isFloat else ty.isInt) = true)
    (hl : HasTy m ty l) (hr : HasTy m ty r) (h : arith op ty l r = .ok v) : HasTy m ty v := by
  cases hf : op.isFloat with
  | true =>
    rw [hf] at hop
    obtain ⟨a, rfl⟩ := hl.of_isFloat hop
    obtain ⟨b, rfl⟩ := hr.of_isFloat hop
    obtain ⟨y, -, h⟩ := except_bind_eq_ok.mp h
    cases h
    exact hasTy_float hop _
  | false =>
    rw [hf] at hop
    obtain ⟨a, rfl⟩ := hl.of_isInt hop
    obtain ⟨b, rfl⟩ := hr.of_isInt hop
    obtain ⟨y, -, h⟩ := except_bind_eq_ok.mp h
    cases h
    exact hasTy_wrap hop _

theorem hasTy_ofBool (b : Bool) : HasTy m .i1 (.ofBool b) := by
  cases b
  · exact .i1 (.inl rfl)
  · exact .i1 (.inr rfl)

theorem hasTy_compare (h : compare pred l r = .ok v) : HasTy m .i1 v := by
  have hbool : ∀ b : Except Fault Bool, Value.ofBool <$> b = .ok v → HasTy m .i1 v := by
    rintro (f | b) h <;> cases h
    exact hasTy_ofBool b
  unfold compare at h
  split at h
  · exact hbool _ h
  · exact hbool _ h
  · cases h

theorem hasTy_convert (hop : op.admits source target = true)
    (h : convert op target v = .ok w) : HasTy m target w := by
  cases op with
  | sext | zext | trunc =>
    simp only [CastOp.admits, Bool.and_eq_true] at hop
    cases v <;> cases h
    exact hasTy_wrap hop.1.2 _
  | fptosi =>
    simp only [CastOp.admits, Bool.and_eq_true] at hop
    cases v <;> cases h
    exact hasTy_wrap hop.2 _
  | sitofp =>
    simp only [CastOp.admits, Bool.and_eq_true] at hop
    cases v <;> cases h
    exact hasTy_float hop.2 _
  | fpext | fptrunc =>
    simp only [CastOp.admits, Bool.and_eq_true, beq_iff_eq] at hop
    obtain ⟨-, rfl⟩ := hop
    cases v <;> cases h
    exact hasTy_float rfl _

end StructLang.Ssa
