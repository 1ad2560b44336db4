import StructLang.Proofs.Flat.CalledSymbols

/-!
# Which programs flat lowering accepts

A value of type `void` has no machine class, so a parameter or an argument of this type cannot be passed
on. These are the only programs without errors that flat lowering refuses.
-/

namespace StructLang.Flat

theorem ParamsCode.ne_void (h : ParamsCode env slots params s slots' passed c s') :
    ∀ q ∈ params, q.ty ≠ .void := by
  induction h with
  | nil => simp
  | cons _ _ hcls _ ih => exact List.forall_mem_cons.mpr ⟨ne_void_of_passed hcls, ih⟩

theorem FunctionsCode.lowerable (hsym : f.symbols.Sound) (hl : LaidOut f.symbols layouts)
    (hc : FunctionsCode (.ofFindings f layouts) d fns gs d')
    (hfns : ∀ g ∈ fns, g.toFnHeader ∈ f.symbols.functions ∧ BlockTyped f g.ret g.startScope g.body) :
    ∀ g ∈ fns, Lowerable f g := by
  induction hc with
  | nil => simp
  | cons hg _ ih =>
    rw [List.forall_mem_cons] at hfns ⊢
    refine ⟨?_, ih hfns.2⟩
    obtain ⟨hheader, hbody⟩ := hfns.1
    have hpasses := hg.passes hsym hl hbody
    cases hg with
    | mk hb =>
      cases hb with
      | mk _ hp => exact ⟨hheader, hbody, hp.ne_void, hpasses.noVoid⟩

/-- A program without errors can be lowered to flat code exactly when no parameter of its functions and
no argument in them has type `void`. -/
theorem lowering_succeeds_iff {p : Program} (hp : p.Sourced) (h : p.analyze.hasErrors = false) :
    (∃ m, Module.ofProgram p p.analyze = .ok m) ↔ p.NoVoidParam ∧ p.NoVoidArg := by
  have hw := hp.grammatical.wellTyped h
  have hl : LaidOut p.findings.symbols p.layouts := fun _ _ hd => hw.layout hd
  constructor
  · rintro ⟨m, hm⟩
    cases hfns : lowerFunctions (.ofFindings p.findings p.layouts) ⟨[], 0, 0, [], []⟩ p.functions with
    | error e =>
      have hfns : lowerFunctions ⟨p.analyze.typeTable, p.symbols, p.layouts⟩ ⟨[], 0, 0, [], []⟩
        p.functions = .error e := hfns
      simp [Module.ofProgram, hfns, bind, Except.bind] at hm
    | ok r =>
      have hlow := (functionsCode_of_eq_ok hfns).lowerable hw.symbols hl fun g hg =>
        ⟨List.mem_map_of_mem hg, hw.bodies g hg⟩
      exact ⟨fun g hg => (hlow g hg).params, fun g hg => (hlow g hg).args⟩
  · rintro ⟨hparams, hargs⟩
    obtain ⟨⟨gs, d⟩, hfns⟩ := exists_lowerFunctions (f := p.findings) hw.symbols hl
      (fun g hg => ⟨List.mem_map_of_mem hg, hw.bodies g hg, hparams g hg, hargs g hg⟩)
      ⟨[], 0, 0, [], []⟩
    have hfns : lowerFunctions ⟨p.analyze.typeTable, p.symbols, p.layouts⟩ ⟨[], 0, 0, [], []⟩
      p.functions = .ok (gs, d) := hfns
    simp only [Module.ofProgram, hfns, bind, Except.bind]
    exact ⟨_, rfl⟩

theorem lowering_succeeds_sample : ∃ p next,
    Program.parse Program.sampleSource 0 0 = .ok (p, next) ∧ p.analyze.hasErrors = false ∧
      (p.NoVoidParam ∧ p.NoVoidArg) ∧ ∃ m, Module.ofProgram p p.analyze = .ok m := by
  obtain ⟨p, next, hparse, h, hvoid⟩ := Program.exists_of_accepts
    (show Program.accepts Program.sampleSource
      (fun p => decide (p.NoVoidParam ∧ p.NoVoidArg)) = true by decide +kernel)
  have hvoid := of_decide_eq_true hvoid
  exact ⟨p, next, hparse, h, hvoid, (lowering_succeeds_iff (.parsed hparse) h).mpr hvoid⟩

end StructLang.Flat
