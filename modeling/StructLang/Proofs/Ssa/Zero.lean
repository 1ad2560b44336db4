import StructLang.Proofs.Ssa.Modules
import StructLang.Proofs.Ssa.Values

/-!
# Zero values

Every type of an accepted program has a zero value in SSA code, and it stands for the value with which
variables of the type start.
-/

namespace StructLang.Ssa

open Symbols (Way)

theorem zeroFields_stand (h : List.Forall₂ (fun g t => Ty.ofSource g.ty = .ok t) fields ts)
    (hzero : ∀ g ∈ fields, ∀ t, Ty.ofSource g.ty = .ok t → ∃ w, zeroValue m depth t = .ok w ∧
      Stands s g.ty (Meaning.zero s depth g.ty) w) :
    ∃ ws, zeroFields (zeroValue m depth) ts = .ok ws ∧
      StandAll s (fields.map TypedName.ty) (fields.map fun g => Meaning.zero s depth g.ty) ws := by
  induction h with
  | nil => exact ⟨[], rfl, .nil⟩
  | cons ht _ ih =>
    obtain ⟨hg, hrest⟩ := List.forall_mem_cons.mp hzero
    obtain ⟨w, hw, hstands⟩ := hg _ ht
    obtain ⟨ws, hws, hall⟩ := ih hrest
    refine ⟨w :: ws, ?_, .cons hstands hall⟩
    rw [zeroFields, hw, hws]
    rfl

theorem zeroValue_scalar (s : Symbols) (depth : Nat)
    (hty : ty.isStruct = false) (ht : Ty.ofSource ty = .ok t) :
    ∃ w, zeroValue m depth t = .ok w ∧ Stands s ty (Meaning.zero s depth ty) w := by
  cases ty <;> cases ht <;> cases hty <;> cases depth <;> refine ⟨_, rfl, ?_⟩ <;>
    first | exact .void | exact .bool | exact .text | exact .i32 rfl | exact .i64 | exact .f32 | exact .f64

/-- The zero value of a type that is reached down a way of structs. -/
theorem zeroValue_stands (hl : m.Lowers p) (hw : p.WellTyped) (depth : Nat)
    (ht : Ty.ofSource ty = .ok t)
    (hway : ∀ name, ty = .struct name → Way p.symbols (name :: path))
    (hdepth : p.structs.length ≤ depth + path.length) : ∃ w, zeroValue m depth t = .ok w ∧
      Stands p.symbols ty (Meaning.zero p.symbols depth ty) w := by
  induction depth generalizing path ty t with
  | zero =>
    refine zeroValue_scalar p.symbols 0 ?_ ht
    cases ty with
    | struct name =>
      have hlength := hw.grounded.length_way (hway name rfl)
      have : path.length + 1 ≤ p.structs.length := hlength
      omega
    | _ => rfl
  | succ depth ih =>
    cases ty with
    | struct name =>
      cases ht
      have hname := hway name rfl
      obtain ⟨d, hd⟩ := hname.declared name List.mem_cons_self
      obtain ⟨st, hst, hlower⟩ := hl.structs.struct? hd
      have hzero : ∀ g ∈ d.fields, ∀ t, Ty.ofSource g.ty = .ok t → ∃ w, zeroValue m depth t = .ok w ∧
          Stands p.symbols g.ty (Meaning.zero p.symbols depth g.ty) w := by
        intro g hg t ht
        refine ih ht (fun inner hinner => ?_) (show p.structs.length ≤ depth + (name :: path).length by
          rw [List.length_cons]
          omega)
        have hdeclared := (hw.symbols.fields d (Symbols.struct?_eq_some hd).1 g hg).1
        obtain ⟨d', hd'⟩ := hdeclared.struct inner hinner
        exact .cons hname ⟨d, hd, Typing.mem_fieldStructs.mpr ⟨g, hg, hinner⟩⟩ hd'
      obtain ⟨ws, hws, hall⟩ := zeroFields_stand (lowerStruct_eq_ok hlower).2 hzero
      refine ⟨.aggregate ws, ?_, ?_⟩
      · simp [zeroValue, hst, hws, bind, Except.bind, pure, Except.pure]
      · rw [Meaning.zero, hd]
        exact .struct hd hall
    | _ => exact zeroValue_scalar p.symbols (depth + 1) rfl ht

theorem zero_stands (hl : m.Lowers p) (hw : p.WellTyped)
    (hty : ty.Declared p.symbols) (ht : Ty.ofSource ty = .ok t) : ∃ w, zero m t = pure w ∧
      Stands p.symbols ty (Meaning.zero p.symbols p.symbols.structs.length ty) w := by
  have hlength : m.structs.length = p.structs.length := hl.structs.length_eq.symm
  have hway : ∀ name, ty = .struct name → Way p.symbols [name] := by
    intro name hname
    obtain ⟨d, hd⟩ := hty.struct name hname
    exact .single hd
  obtain ⟨w, hzero, hstands⟩ := zeroValue_stands hl hw p.structs.length ht hway (Nat.le_refl _)
  refine ⟨w, ?_, hstands⟩
  rw [zero, hlength, hzero]

end StructLang.Ssa
