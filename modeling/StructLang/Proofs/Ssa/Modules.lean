import StructLang.Proofs.Linkage
import StructLang.Proofs.Ssa.Drafts
import StructLang.Proofs.Ssa.StructCheck

/-!
# What lowered modules consist of

The parameters, slots and constants of lowered functions, and the functions and foreign declarations of
a module in terms of those of its program.
-/

namespace StructLang.Ssa

/-! ## Parameters and slots -/

variable {name : String}

theorem paramsOf_eq_ok {g : FnHeader} (h : paramsOf g = .ok params) :
    ∃ own, params = (g.receiver.toList.map fun ty => ⟨"self", .ptr, ty, true⟩) ++ own ∧
      List.Forall₂ (fun q p => ∃ t, Ty.ofSource q.ty = .ok t ∧ p = ⟨q.name, t, q.ty, false⟩)
        g.params own := by
  rw [paramsOf] at h
  generalize hown : List.mapM (m := Except LoweringError) _ g.params = r at h
  cases r with
  | error e => cases h
  | ok own =>
    cases h
    refine ⟨own, rfl, (mapM_eq_ok_iff.mp hown).imp fun q p hq => ?_⟩
    cases ht : Ty.ofSource q.ty with
    | error e =>
      rw [ht] at hq
      cases hq
    | ok t =>
      rw [ht] at hq
      cases hq
      exact ⟨t, rfl, rfl⟩

/-- A call passes what a function takes. -/
theorem paramTypes_user {g : FnHeader} (h : paramsOf g = .ok params) :
    paramTypes (.user g) = .ok (params.map Param.ty) := by
  obtain ⟨own, rfl, hown⟩ := paramsOf_eq_ok h
  have htypes : (g.params.map TypedName.ty).mapM Ty.ofSource = .ok (own.map Param.ty) := by
    rw [mapM_eq_ok_iff, List.forall₂_map_left_iff, List.forall₂_map_right_iff]
    refine hown.imp fun q p hqp => ?_
    obtain ⟨t, ht, rfl⟩ := hqp
    exact ht
  cases hr : g.receiver with
  | some ty =>
    have hsig : (Callee.user g).signature = ty :: g.params.map TypedName.ty := by
      simp [Callee.signature, FnHeader.signature, hr]
    rw [paramTypes, hsig]
    simp [Callee.hasReceiver, hr, htypes, pure, Except.pure, bind, Except.bind]
  | none =>
    have hsig : (Callee.user g).signature = g.params.map TypedName.ty := by
      simp [Callee.signature, FnHeader.signature, hr]
    rw [paramTypes, hsig]
    simp only [Callee.hasReceiver, hr]
    cases hps : g.params.map TypedName.ty with
    | nil =>
      rw [hps] at htypes
      exact htypes
    | cons t ts =>
      rw [hps, List.mapM_cons] at htypes
      exact htypes

theorem declaredSlot_eq_ok {env : BodyEnv} (h : declaredSlot env decl = .ok slot) :
    env.declared.lookup decl.node.id = some slot.address ∧
      env.types.typeOfDecl decl = .ok slot.ty ∧ slot.byReference = false := by
  unfold declaredSlot at h
  split at h
  · cases h
  · next r hr =>
    obtain ⟨ty, hty, h⟩ := except_bind_eq_ok.mp h
    cases h
    exact ⟨hr, hty, rfl⟩

theorem declaredSlot_eq (h : declaredSlot ⟨.ofFindings f, declared⟩ decl = .ok slot)
    (hty : f.types[decl.node.id]? = some ty) :
    declared.lookup decl.node.id = some slot.address ∧ slot.ty = ty ∧ slot.byReference = false := by
  obtain ⟨hlookup, hslotTy, href⟩ := declaredSlot_eq_ok h
  have hdecl : f.types.typeOfDecl decl = .ok ty := by rw [TypeTable.typeOfDecl, hty]
  exact ⟨hlookup, Except.ok.inj (hslotTy.symm.trans hdecl), href⟩

def DeclaresValues (f : Findings) (ids : List Nat) : Prop :=
  ∀ id ∈ ids, ∃ ty, f.types[id]? = some ty ∧ ty.Declared f.symbols ∧ ty ≠ .void

mutual

theorem declaresValues_hoistedIn :
    StmtsTyped f ret scope stmts → DeclaresValues f (hoistedIn (.ofFindings f) stmts)
  | .nil => nofun
  | .cons (.branch _ ht) hrest =>
    List.forall_mem_append.mpr ⟨declaresValues_hoisted ht, declaresValues_hoistedIn hrest⟩
  | .cons (.branchElse _ ht he) hrest => List.forall_mem_append.mpr ⟨List.forall_mem_append.mpr
      ⟨declaresValues_hoisted ht, declaresValues_hoisted he⟩, declaresValues_hoistedIn hrest⟩
  | .cons (.declare ..) hrest | .cons (.assign ..) hrest | .cons (.retNone ..) hrest
  | .cons (.ret ..) hrest | .cons (.expr ..) hrest => (declaresValues_hoistedIn hrest :)

theorem declaresValues_hoisted :
    BlockTyped f ret scope b → DeclaresValues f (hoisted (.ofFindings f) b)
  | .mk hn h => by
    refine List.forall_mem_append.mpr ⟨fun id hm => ?_, declaresValues_hoistedIn h⟩
    exact h.declaration id (hn ▸ hm)

end

/-! ## Functions -/

/-- What stands before the code of a block: the slots, in the entry. -/
def front (slots : List Instr) (k : Nat) : List Instr := if k = 0 then slots else []

theorem getElem?_withSlots {k : Nat} (h : (withSlots slots blocks)[k]? = some b) :
    ∃ b', blocks[k]? = some b' ∧ b = { b' with instrs := front slots k ++ b'.instrs } := by
  cases blocks with
  | nil => simp [withSlots] at h
  | cons entry rest =>
    cases k with
    | zero =>
      cases h
      exact ⟨entry, rfl, rfl⟩
    | succ k => exact ⟨b, h, rfl⟩

theorem withSlots_entry (h : blocks[0]? = some b) :
    (withSlots slots blocks)[0]? = some { b with instrs := slots ++ b.instrs } := by
  cases blocks with
  | nil => cases h
  | cons entry rest =>
    cases h
    rfl

theorem dests_withSlots (h : blocks ≠ []) :
    ((withSlots slots blocks).flatMap fun b => dests b.instrs) =
      dests slots ++ blocks.flatMap fun b => dests b.instrs := by
  cases blocks with
  | nil => exact absurd rfl h
  | cons entry rest => simp [withSlots]

theorem length_withSlots (slots : List Instr) (blocks : List Block) :
    (withSlots slots blocks).length = blocks.length := by
  cases blocks <;> rfl

theorem BodyCode.strings (h : BodyCode env g params ret d d') (hlt : d.current < d.blocks.length) :
    d.strings <+: d'.strings := by
  cases h with
  | @mk slots code s1 declared s2 d1 hparams hhoist hblock =>
    have hlt' : (d.extend s2 code).current < (d.extend s2 code).blocks.length := by
      rw [Draft.length_extend]
      exact hlt
    have hgrows := hblock.grows hlt'
    have hbefore := hparams.draws.strings.trans hhoist.draws.strings
    exact hbefore.trans (hgrows.strings.trans (Draft.grows_terminateIfOpen hgrows.lt _).strings)

theorem FunctionCode.strings {strings : List Constant}
    (h : FunctionCode env strings g lowered strings') : strings <+: strings' := by
  cases h with
  | mk _ _ hb => exact hb.strings Nat.one_pos

theorem FunctionsCode.forall₂ (h : FunctionsCode env strings fns gs strings') :
    strings <+: strings' ∧ List.Forall₂ (fun f g => ∃ strings1 strings2,
      FunctionCode env strings1 f g strings2 ∧ strings2 <+: strings') fns gs := by
  induction h with
  | nil => exact ⟨List.prefix_rfl, .nil⟩
  | cons hf _ ih => exact ⟨hf.strings.trans ih.1, .cons ⟨_, _, hf, ih.1⟩ ih.2⟩

/-! ## Declarations -/

/-- Every foreign declaration has one of its name in the module. -/
theorem exists_mem_lowerForeigns (h : lowerForeigns seen ds = .ok gs) :
    ∀ d ∈ ds, d.name ∉ seen → ∃ g ∈ gs, g.name = d.name := by
  induction ds generalizing seen gs with
  | nil => simp
  | cons d rest ih =>
    rw [lowerForeigns] at h
    split at h
    · next hseen =>
      intro d' hd' hnew
      rcases List.mem_cons.mp hd' with rfl | hd'
      · exact absurd (by simpa using hseen) hnew
      · exact ih h d' hd' hnew
    · generalize hps : List.mapM (m := Except LoweringError) _ d.params = ps at h
      cases ps with
      | error e => cases h
      | ok ps =>
        cases hr : Ty.ofSource d.ret with
        | error e =>
          rw [hr] at h
          cases h
        | ok ret =>
          cases hrest : lowerForeigns (d.name :: seen) rest with
          | error e =>
            rw [hr, hrest] at h
            cases h
          | ok gs' =>
            rw [hr, hrest] at h
            cases h
            intro d' hd' hnew
            by_cases hname : d'.name = d.name
            · exact ⟨_, List.mem_cons_self, hname.symm⟩
            · obtain ⟨g, hg, hgname⟩ := ih hrest d' ((List.mem_cons.mp hd').resolve_left
                fun heq => hname (congrArg _ heq)) (by simp [hname, hnew])
              exact ⟨g, List.mem_cons_of_mem _ hg, hgname⟩

/-- A module has the code of a program. -/
structure Module.Lowers (m : Module) (p : Program) : Prop where
  structs : m.HasStructs p.symbols
  foreigns : lowerForeigns [] p.foreigns = .ok m.foreigns
  functions : FunctionsCode (.ofFindings p.findings) [] p.functions m.functions m.strings

theorem ofProgram_eq_ok (h : Module.ofProgram name p analysis = .ok m) :
    m.HasStructs p.symbols ∧ lowerForeigns [] p.foreigns = .ok m.foreigns ∧
      FunctionsCode ⟨analysis.typeTable, analysis.declaredIn, p.symbols⟩ [] p.functions m.functions
        m.strings := by
  rw [Module.ofProgram] at h
  cases hs : p.structs.mapM lowerStruct with
  | error e =>
    rw [hs] at h
    cases h
  | ok structs =>
    cases hf : lowerForeigns [] p.foreigns with
    | error e =>
      rw [hs, hf] at h
      cases h
    | ok foreigns =>
      cases hg : lowerFunctions ⟨analysis.typeTable, analysis.declaredIn, p.symbols⟩ []
          p.functions with
      | error e =>
        rw [hs, hf, hg] at h
        cases h
      | ok r =>
        rw [hs, hf, hg] at h
        cases h
        exact ⟨mapM_eq_ok_iff.mp hs, rfl, functionsCode_of_eq_ok hg⟩

theorem lowers_of_eq_ok (h : Module.ofProgram name p p.analyze = .ok m) : m.Lowers p := by
  obtain ⟨hstructs, hforeigns, hfunctions⟩ := ofProgram_eq_ok h
  exact ⟨hstructs, hforeigns, hfunctions⟩

namespace Module.Lowers

variable {m : Module} (h : m.Lowers p)
include h

theorem function? (hw : p.WellTyped) (hg : g ∈ p.functions) :
    ∃ lowered, m.function? g.linkage = some lowered ∧ ∃ strings strings',
      FunctionCode (.ofFindings p.findings) strings g lowered strings' := by
  obtain ⟨lowered, hlowered, strings, strings', hcode, -⟩ :=
    find?_of_forall₂ h.functions.forall₂.2 (q := fun f => f.name == g.linkage)
      (fun f lowered hf => by
        obtain ⟨_, _, hcode, -⟩ := hf
        cases hcode
        rfl) (hw.find?_linkage hg)
  exact ⟨lowered, hlowered, strings, strings', hcode⟩

theorem function?_eq_none (hname : ∀ g ∈ p.functions, name ≠ g.linkage) :
    m.function? name = none := by
  refine List.find?_eq_none.mpr fun lowered hm => ?_
  obtain ⟨g, hg, _, _, hcode, -⟩ := exists_of_forall₂ h.functions.forall₂.2 hm
  cases hcode
  simpa using (hname g hg).symm

theorem foreign? (hd : d ∈ p.foreigns) : (m.foreign? d.name).isSome = true := by
  obtain ⟨g, hg, hname⟩ := exists_mem_lowerForeigns h.foreigns d hd (by simp)
  exact List.find?_isSome.mpr ⟨g, hg, by simpa using hname⟩

end Module.Lowers

end StructLang.Ssa
