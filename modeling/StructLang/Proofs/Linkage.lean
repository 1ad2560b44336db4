import Mathlib.Data.List.Nodup
import StructLang.Proofs.Typing

/-!
# Symbols tell functions apart

Different functions of an accepted program have different symbols, and only the entry point has the
symbol of the entry point.
-/

namespace StructLang

theorem FnHeader.linkage_eq_entryPoint {g : FnHeader} :
    g.linkage = entryPoint ↔ g.name = entryPoint := by
  constructor
  · intro h
    by_contra hne
    have hmark : '_' ∉ g.linkage.toList := by
      rw [h]
      decide
    simp only [FnHeader.linkage, linkageName, Bool.false_or, beq_iff_eq, hne, if_false] at h hmark
    -- a module, a receiver or a parameter would put an underscore into the symbol
    have hmodule : g.module.isEmpty = true := by
      by_contra hm
      simp [hm] at hmark
    have hreceiver : g.receiver = none := by
      cases hr : g.receiver with
      | none => rfl
      | some ty => simp [hr] at hmark
    have hparams : g.params = [] := by
      cases hp : g.params with
      | nil => rfl
      | cons q qs => simp [hp] at hmark
    exact hne (by simpa [hmodule, hreceiver, hparams] using h)
  · intro h
    simp [FnHeader.linkage, linkageName, h]

theorem Program.WellTyped.linkage_inj {p : Program} (h : p.WellTyped) (hf : f ∈ p.functions)
    (hg : g ∈ p.functions) (heq : f.linkage = g.linkage) : f = g := by
  by_cases hname : f.name = entryPoint
  · have hname' : g.name = entryPoint := by
      rw [← FnHeader.linkage_eq_entryPoint, ← heq, FnHeader.linkage_eq_entryPoint]
      exact hname
    obtain ⟨entry, hentry⟩ := h.entry
    have hone : ∀ k ∈ p.functions, k.name = entryPoint → k = entry := by
      intro k hk hkname
      have hmem : k ∈ p.functions.filter fun f => f.name == entryPoint :=
        List.mem_filter.mpr ⟨hk, by simpa using hkname⟩
      rw [hentry] at hmem
      exact List.mem_singleton.mp hmem
    rw [hone f hf hname, hone g hg hname']
  · have hname' : g.name ≠ entryPoint := by
      rwa [ne_eq, ← FnHeader.linkage_eq_entryPoint, ← heq, FnHeader.linkage_eq_entryPoint]
    refine List.inj_on_of_nodup_map h.linkage_nodup ?_ ?_ heq
    · exact List.mem_filter.mpr ⟨hf, by simpa using hname⟩
    · exact List.mem_filter.mpr ⟨hg, by simpa using hname'⟩

theorem Program.WellTyped.find?_linkage {p : Program} (h : p.WellTyped) (hg : g ∈ p.functions) :
    (p.functions.find? fun f => f.linkage == g.linkage) = some g := by
  cases hfind : p.functions.find? fun f => f.linkage == g.linkage with
  | none =>
    have := List.find?_eq_none.mp hfind g hg
    simp at this
  | some f =>
    have hlinkage := List.find?_some hfind
    rw [h.linkage_inj (List.mem_of_find?_eq_some hfind) hg (by simpa using hlinkage)]

/-- No foreign function has the symbol of a function of the program. -/
def Program.NoSharedSymbol (p : Program) : Prop :=
  ∀ d ∈ p.foreigns, ∀ g ∈ p.functions, d.name ≠ g.linkage

instance (p : Program) : Decidable p.NoSharedSymbol :=
  inferInstanceAs (Decidable (∀ d ∈ p.foreigns, ∀ g ∈ p.functions, d.name ≠ g.linkage))

end StructLang
