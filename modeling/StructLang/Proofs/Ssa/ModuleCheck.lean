import StructLang.Proofs.Ssa.FunctionCheck

/-!
# Lowered modules pass the check

Lowering a program without errors gives a well-formed module, unless a value of type `void` is passed or
returned, or a foreign function has the symbol of a function of the program.
-/

namespace StructLang.Ssa

namespace Module.Lowers

variable {m : Module} (h : m.Lowers p)
include h

theorem checkCallee (hw : p.WellTyped) (hshared : p.NoSharedSymbol) {name : String}
    (hcallee : p.symbols.resolve name ts = .ok callee) (hparams : paramTypes callee = .ok params)
    (hret : Ty.ofSource callee.ret = .ok ret) :
    checkCallee m callee.linkage ret params = .ok () := by
  rcases Symbols.resolve_eq_ok hcallee with ⟨d, hd, rfl, -⟩ | ⟨header, hheader, rfl, -⟩
  · have hlinkage : (Callee.foreign d).linkage = d.name := by simp [Callee.linkage, linkageName]
    rw [Ssa.checkCallee, hlinkage, h.function?_eq_none (hshared d hd)]
    simp [Option.ne_none_iff_isSome.mpr (h.foreign? hd)]
  · obtain ⟨g, hg, rfl⟩ := List.mem_map.mp hheader
    obtain ⟨lowered, hfind, strings, strings', hcode⟩ := h.function? hw hg
    rw [Ssa.checkCallee, Callee.linkage, hfind]
    cases hcode with
    | mk hp hr _ =>
      rw [paramTypes_user hp, Except.ok.injEq] at hparams
      obtain rfl := Except.ok.inj (hr.symm.trans hret)
      simp [← hparams, expectTy]

theorem field_ne_void (hw : p.WellTyped) {name : String} (hs : m.struct? name = some s) :
    ∀ ty ∈ s.fields, ty ≠ .void := by
  intro ty hty
  obtain ⟨d, hd, hlower⟩ := exists_of_forall₂ h.structs (List.mem_of_find?_eq_some hs)
  obtain ⟨q, hq, ht⟩ := exists_of_forall₂ (lowerStruct_eq_ok hlower).2 hty
  exact ofSource_ne_void ht (hw.symbols.fields d hd q hq).2

/-- A function without `void` as its check sees it. -/
theorem visible (hw : p.WellTyped) (hshared : p.NoSharedSymbol) (hg : g ∈ p.functions)
    {strings : List Constant} (hcode : FunctionCode (.ofFindings p.findings) strings g F strings')
    (hstrings : strings' ⊆ m.strings) (hfree : VoidFree p.findings True g) :
    ∃ c, Visible m F c := by
  have hreceiver := hw.symbols.receiver _ (List.mem_map_of_mem hg)
  obtain ⟨c, hkinded, hself, hstrict, hmodule, hsymbols, hparams, -⟩ := hcode.kinded hfree hstrings
    hw.symbols (List.mem_map_of_mem hg) (hw.bodies g hg) fun name d hd => h.structs.struct? hd
  refine ⟨c, hstrict ▸ True.intro, hmodule, ?_, fun q hq hqr => ?_, ?_, fun _ _ => h.field_ne_void hw,
    fun hr hps hret => h.checkCallee hw hshared (hsymbols ▸ hr) hps hret, hcode.wellBuilt, hkinded⟩
  · cases hcode with
    | mk hps _ _ =>
      obtain rfl := Except.ok.inj (hparams.symm.trans hps)
      simp
  · obtain ⟨own, hown, hforall⟩ := paramsOf_eq_ok hparams
    rw [hown] at hq
    rcases List.mem_append.mp hq with hq | hq
    · obtain ⟨ty, hty, rfl⟩ := List.mem_map.mp hq
      obtain ⟨-, struct, rfl⟩ := hreceiver ty (by simpa using hty)
      exact ⟨rfl, nofun⟩
    · obtain ⟨q', -, t, -, rfl⟩ := exists_of_forall₂ hforall hq
      cases hqr
  · intro hvoid
    rw [hself, receiverTy, Option.bind_eq_some_iff] at hvoid
    obtain ⟨ty, hty, ht⟩ := hvoid
    obtain ⟨-, struct, rfl⟩ := hreceiver ty hty
    cases ht

end Module.Lowers

/-- Lowering an accepted program gives a well-formed module, unless a function has a parameter of type
`void`, a value of type `void` is returned or passed, or a foreign function has the symbol of a
function of the program. -/
theorem lowering_wellFormed {name : String} {p : Program} {m : Module} (hp : p.Sourced)
    (h : p.analyze.hasErrors = false) (hm : Module.ofProgram name p p.analyze = .ok m)
    (hparams : p.NoVoidParam) (hreturns : p.NoVoidReturn) (hargs : p.NoVoidArg)
    (hshared : p.NoSharedSymbol) : m.check = .ok () := by
  have hw := hp.grammatical.wellTyped h
  have hl := lowers_of_eq_ok hm
  have htypes : m.checkTypes = .ok () := by
    rcases hl.structs.checkTypes_cases hw.symbols.fields hw.grounded.nodup with
      ⟨hok, -⟩ | ⟨name, -, hcycle⟩
    · exact hok
    · exact absurd hcycle (hw.grounded.acyclic name)
  have hfunctions : ∀ lowered ∈ m.functions, checkFunction m lowered = .ok () := by
    intro lowered hmem
    obtain ⟨g, hg, strings, strings', hcode, hprefix⟩ :=
      exists_of_forall₂ hl.functions.forall₂.2 hmem
    have hfree : VoidFree p.findings True g :=
      ⟨fun _ => hparams g hg, fun _ => hargs g hg, fun _ => hreturns g hg⟩
    obtain ⟨c, hvisible⟩ := hl.visible hw hshared hg hcode hprefix.subset hfree
    exact hvisible.checkFunction
  have hbodies : (m.functions.forM fun f =>
      (checkFunction m f).mapError (Flaw.inFunction f.name)) = .ok () := by
    refine forM_eq_ok fun lowered hmem => ?_
    rw [hfunctions lowered hmem]
    rfl
  rw [Module.check, htypes]
  exact hbodies

theorem lowering_wellFormed_sample : ∃ p next m,
    Program.parse Program.sampleSource 0 0 = .ok (p, next) ∧ p.analyze.hasErrors = false ∧
      Module.ofProgram "sample" p p.analyze = .ok m ∧ p.NoVoidParam ∧ p.NoVoidReturn ∧
      p.NoVoidArg ∧ p.NoSharedSymbol ∧ m.check = .ok () := by
  obtain ⟨p, next, hparse, h, htest⟩ := Program.exists_of_accepts
    (show Program.accepts Program.sampleSource (fun p =>
      decide (p.NoVoidParam ∧ p.NoVoidReturn ∧ p.NoVoidArg ∧ p.NoSharedSymbol) &&
        (Module.ofProgram "sample" p p.analyze).isOk) = true by decide +kernel)
  rw [Bool.and_eq_true, decide_eq_true_eq] at htest
  obtain ⟨⟨hparams, hreturns, hargs, hshared⟩, hok⟩ := htest
  cases hm : Module.ofProgram "sample" p p.analyze with
  | error e =>
    rw [hm] at hok
    cases hok
  | ok m =>
    exact ⟨p, next, m, hparse, h, hm, hparams, hreturns, hargs, hshared,
      lowering_wellFormed (.parsed hparse) h hm hparams hreturns hargs hshared⟩

end StructLang.Ssa
