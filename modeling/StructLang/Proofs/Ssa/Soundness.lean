import StructLang.Proofs.Ssa.Functions
import StructLang.Proofs.Ssa.Preservation

/-!
# Type soundness

A run of an accepted program ends with a result or with one of a few faults, none of which is a
confusion of types, and through the whole run registers and memory cells hold values of their types.
-/

namespace StructLang

/-- The entry point of the program takes arguments or a receiver. -/
def Program.EntryTakes (p : Program) : Prop :=
  ∃ g ∈ p.functions, g.name = entryPoint ∧ g.signature ≠ []

namespace Ssa

/-- The faults with which the run of an accepted program may end. -/
inductive Fault.Permitted (p : Program) : Fault → Prop where
  | divisionByZero : Permitted p .divisionByZero
  | callDepth : Permitted p .callDepth
  | unreachable {func : String} : Permitted p (.unreachable func)
  | missingArgument (h : p.EntryTakes) : Permitted p .missingArgument

/-- Registers and memory cells hold values of their types. -/
structure Moment.Typed (m : Module) (M : Moment) : Prop where
  registers : ∀ f ∈ M.top :: M.callers, ∀ b ∈ f.func.blocks, ∀ i ∈ b.instrs, ∀ r v,
    i.dest? = some r → f.regs.lookup r = some v → HasTy m i.resultTy v
  size : M.cells.length = M.machine.memory.size
  cells : ∀ (k : Nat) (ty : Ty) (v : Value), M.cells[k]? = some ty → M.machine.memory[k]? = some v →
    HasTy m ty v

section

variable {m : Module}

/-! ## Types -/

/-- Only one instruction of a function assigns a register, so that its type is the register's. -/
theorem Frame.Sound.registers (hl : m.Lowers p) {f : Frame} (h : f.Sound p c cells before)
    (hm : c.module = m) :
    ∀ b ∈ f.func.blocks, ∀ i ∈ b.instrs, ∀ r v, i.dest? = some r → f.regs.lookup r = some v →
      HasTy m i.resultTy v := by
  subst hm
  intro b hb i hi r v hr hv
  obtain ⟨b', hb', i', hi', hr', hty⟩ := h.typed r v hv
  obtain ⟨g, hg, strings, strings', hcode, -⟩ := exists_of_forall₂ hl.functions.forall₂.2 h.listed
  have hnodup : (dests (f.func.blocks.flatMap Block.instrs)).Nodup := by
    have hassigned := hcode.wellBuilt.assigned
    rwa [dests, List.filterMap_flatMap]
  rw [eq_of_dest? hnodup (List.mem_flatMap.mpr ⟨b, hb, hi⟩) (List.mem_flatMap.mpr ⟨b', hb', hi'⟩)
    hr hr']
  exact hty

theorem Waiting.sound (h : Waiting p m cells ret callers) :
    ∀ f ∈ callers, ∃ c before, c.module = m ∧ f.Sound p c cells before := by
  induction h with
  | nil => exact List.forall_mem_nil _
  | cons hm hf _ _ ih => exact List.forall_mem_cons.mpr ⟨⟨_, _, hm, hf⟩, ih⟩

theorem Cell.Admits.hasTy {cell : Cell} (h : cell.Admits m cells v) : HasTy m cell.ty v := by
  cases cell with
  | value => exact h
  | holder => exact Points.hasTy h

theorem Moment.Sound.typed (hl : m.Lowers p) {M : Moment} (h : M.Sound p m) : M.Typed m := by
  obtain ⟨hm, htop, hcallers, hs, hcells⟩ := h
  refine ⟨List.forall_mem_cons.mpr ⟨htop.registers hl hm, fun f hf => ?_⟩, ?_, fun k ty v hk hv => ?_⟩
  · obtain ⟨c, before, hm', hsound⟩ := hcallers.sound f hf
    exact hsound.registers hl hm'
  · rw [hcells, List.length_map, hs.size]
  · rw [hcells, List.getElem?_map] at hk
    obtain ⟨cell, hcell, rfl⟩ := Option.map_eq_some_iff.mp hk
    exact (hs.admits k cell v hcell hv).hasTy

/-! ## Ends -/

theorem exists_steps_slots (hl : m.Lowers p) (hw : p.WellTyped) (call : Call) (args : List Value)
    (h : ∀ i ∈ slots, i.Holdable p.symbols) (regs : Registers) (s : Machine) :
    ∃ regs' s', steps m call args regs slots s = .ok regs' s' := by
  induction slots generalizing regs s with
  | nil => exact ⟨regs, s, rfl⟩
  | cons i rest ih =>
    obtain ⟨⟨r, t, rfl, ht⟩, hrest⟩ := List.forall_mem_cons.mp h
    obtain ⟨w, hzero⟩ : ∃ w, zero m t = pure w := by
      rcases ht with rfl | ⟨ty, hty, ht⟩
      · refine ⟨.null, ?_⟩
        rw [zero]
        cases m.structs.length <;> rfl
      · obtain ⟨w, hzero, -⟩ := zero_stands hl hw hty ht
        exact ⟨w, hzero⟩
    have hstep : step m call args regs (.alloca r t) s =
        .ok (regs.assign r (.ptr ⟨.slot s.memory.size, []⟩)) { s with memory := s.memory.push w } := by
      rw [step, hzero, pure_bind]
      rfl
    obtain ⟨regs', s', hsteps⟩ := ih hrest (regs.assign r (.ptr ⟨.slot s.memory.size, []⟩))
      { s with memory := s.memory.push w }
    refine ⟨regs', s', ?_⟩
    rw [steps, Execution.bind_of_ok hstep, hsteps]

theorem runBlocks_missing (hl : m.Lowers p) (hw : p.WellTyped) (hkinded : F.Kinded c)
    (hsym : c.symbols = p.symbols) (hparams : c.params ≠ []) (call : Call) (budget : Nat)
    (s : Machine) :
    ∃ s', runBlocks m call F [] (budget + 1) [] 0 s = .error (.fault .missingArgument) s' := by
  obtain ⟨b, ty, rest, hb, hinstrs⟩ := hkinded.first hparams
  obtain ⟨regs, s', hslots⟩ := exists_steps_slots hl hw call []
    (fun i hi => hsym ▸ (hkinded.slots i hi).1) [] s
  have hstore : steps m call [] regs (.store ty (.param 0) (.register 0) :: rest) s' =
      .error (.fault .missingArgument) s' := by
    rw [steps]
    exact Execution.bind_of_error rfl
  have hentry : steps m call [] [] b.instrs s = .error (.fault .missingArgument) s' := by
    rw [hinstrs, steps_append, Execution.bind_of_ok hslots, hstore]
  refine ⟨s', ?_⟩
  rw [runBlocks, hb]
  exact Execution.bind_of_error hentry

theorem Shows.permitted (h : Shows e f) : f.Permitted p := by
  cases h with
  | divisionByZero => exact .divisionByZero
  | callDepth => exact .callDepth
  | noReturn => exact .unreachable

theorem params_ne_nil (h : paramsOf g = .ok params) (hsig : g.signature ≠ []) : params ≠ [] := by
  obtain ⟨own, rfl, hown⟩ := paramsOf_eq_ok h
  rintro hnil
  obtain ⟨hreceiver, rfl⟩ := List.append_eq_nil_iff.mp hnil
  cases hr : g.receiver with
  | some ty => simp [hr] at hreceiver
  | none =>
    rw [List.forall₂_nil_right_iff] at hown
    simp [FnHeader.signature, hr, hown] at hsig

/-- With enough budget, a run ends with a result or with a fault that is permitted. -/
theorem execute_ends (hl : m.Lowers p) (hw : p.WellTyped) (hids : p.ids.Nodup)
    (hf : p.foreigns = []) (hbudget : ∀ g ∈ p.functions, g.body.jumps < budget) :
    (∃ v s, m.execute budget = .ok v s) ∨
      ∃ f s, m.execute budget = .error (.fault f) s ∧ f.Permitted p := by
  obtain ⟨g, hg⟩ := hw.entry
  obtain ⟨hmem, hname⟩ := List.mem_filter.mp (hg ▸ List.mem_singleton_self g)
  have hlinkage : g.linkage = entryPoint := FnHeader.linkage_eq_entryPoint.mpr (beq_iff_eq.mp hname)
  by_cases hsig : g.signature = []
  · have hcall := callAt_follows hl hw hids hf hbudget maxDepth g.toFnHeader
      (List.mem_map_of_mem hmem) [] [] ⟨#[], ""⟩ (hsig ▸ .nil) True.intro
    rw [hlinkage] at hcall
    revert hcall
    cases Meaning.callAt p maxDepth entryPoint [] with
    | ok v =>
      rintro ⟨r, s, hrun, -⟩
      exact .inl ⟨r, s, hrun⟩
    | error e =>
      rintro ⟨f, s, hrun, hshows⟩
      exact .inr ⟨f, s, hrun, hshows.permitted⟩
  · obtain ⟨F, c, hF, hkinded, -, hsym, hparams, -⟩ := hl.kinded_function hw hmem
    rw [hlinkage] at hF
    obtain ⟨budget, rfl⟩ := Nat.exists_eq_add_of_lt (hbudget g hmem)
    obtain ⟨s, hrun⟩ := runBlocks_missing hl hw hkinded hsym (params_ne_nil hparams hsig)
      (callAt m _ (maxDepth - 1)) (g.body.jumps + budget) ⟨#[], ""⟩
    rw [← execute_eq hF] at hrun
    exact .inr ⟨_, s, hrun, .missingArgument ⟨g, hmem, beq_iff_eq.mp hname, hsig⟩⟩

theorem Reaches.unique (h1 : Reaches m M M1) (h2 : Reaches m M M2) (hend1 : ∀ M', ¬Next m M1 M')
    (hend2 : ∀ M', ¬Next m M2 M') : M1 = M2 := by
  have hunique : Relator.RightUnique (Next m) := by
    rintro M M1 M2 ⟨h1⟩ ⟨h2⟩
    cases h1.symm.trans h2
    rfl
  rcases Relation.ReflTransGen.total_of_right_unique hunique h1 h2 with h | h
  · rcases h.cases_head with heq | ⟨M', hnext, -⟩
    · exact heq
    · exact absurd hnext (hend1 M')
  · rcases h.cases_head with heq | ⟨M', hnext, -⟩
    · exact heq.symm
    · exact absurd hnext (hend2 M')

theorem Module.Passes.of_execute (hF : m.function? entryPoint = some F)
    (hb : F.blocks[0]? = some b) (budget : Nat) :
    (∀ v s, m.execute budget = .ok v s → ∃ M, m.Passes M ∧ M.turn m = .ok (.over v) s) ∧
      ∀ f s, m.execute budget = .error (.fault f) s →
        ∃ M, m.Passes M ∧ M.turn m = .error (.fault f) s := by
  have hunfolds := execute_unfolds hF hb budget
  constructor
  · intro v s h
    rw [h] at hunfolds
    obtain ⟨M, hM, hturn⟩ := hunfolds
    exact ⟨M, .mk hF hb hM, hturn⟩
  · intro f s h
    rw [h] at hunfolds
    obtain ⟨M, hM, hturn⟩ := hunfolds
    exact ⟨M, .mk hF hb hM, hturn⟩

theorem Module.Passes.unique (h1 : m.Passes M1) (h2 : m.Passes M2)
    (hend1 : ∀ top callers made s, M1.turn m ≠ .ok (.on top callers made) s)
    (hend2 : ∀ top callers made s, M2.turn m ≠ .ok (.on top callers made) s) : M1 = M2 := by
  obtain ⟨hF, hb, hM1⟩ := h1
  obtain ⟨hF', hb', hM2⟩ := h2
  cases hF.symm.trans hF'
  cases hb.symm.trans hb'
  refine hM1.unique hM2 ?_ ?_
  · rintro _ ⟨h⟩
    exact hend1 _ _ _ _ h
  · rintro _ ⟨h⟩
    exact hend2 _ _ _ _ h

theorem exists_entry (hl : m.Lowers p) (hw : p.WellTyped) :
    ∃ F b, m.function? entryPoint = some F ∧ F.blocks[0]? = some b := by
  obtain ⟨g, hg⟩ := hw.entry
  obtain ⟨hmem, hname⟩ := List.mem_filter.mp (hg ▸ List.mem_singleton_self g)
  obtain ⟨F, hF, strings, strings', hcode⟩ := hl.function? hw hmem
  rw [FnHeader.linkage_eq_entryPoint.mpr (beq_iff_eq.mp hname)] at hF
  have hlength : 0 < F.blocks.length := List.length_pos_of_ne_nil hcode.wellBuilt.entry
  exact ⟨F, F.blocks[0], hF, List.getElem?_eq_getElem hlength⟩

theorem execute_permitted (hl : m.Lowers p) (hw : p.WellTyped) (hids : p.ids.Nodup)
    (hf : p.foreigns = []) (hF : m.function? entryPoint = some F) (hb : F.blocks[0]? = some b)
    (henough : ∀ g ∈ p.functions, g.body.jumps < enough)
    (h : m.execute budget = .error (.fault f) s) : f.Permitted p := by
  obtain ⟨M, hM, hturn⟩ := (Module.Passes.of_execute hF hb budget).2 f s h
  rcases execute_ends hl hw hids hf henough with ⟨v, s', h'⟩ | ⟨f', s', h', hpermitted⟩
  · obtain ⟨M', hM', hturn'⟩ := (Module.Passes.of_execute hF hb enough).1 v s' h'
    obtain rfl := hM.unique hM' (by simp [hturn]) (by simp [hturn'])
    cases hturn.symm.trans hturn'
  · obtain ⟨M', hM', hturn'⟩ := (Module.Passes.of_execute hF hb enough).2 f' s' h'
    obtain rfl := hM.unique hM' (by simp [hturn]) (by simp [hturn'])
    cases hturn.symm.trans hturn'
    exact hpermitted

end

/-- The module of the program returns this number. -/
def Returns (p : Program) (v : Int64) : Bool :=
  match Module.ofProgram "sample" p p.analyze with
  | .ok m =>
    match m.execute 10 with
    | .ok (some (.int w)) _ => w == v
    | _ => false
  | .error _ => false

/-- Type soundness: the run of an accepted program without foreign functions ends, with a result or with
a fault that is no confusion of types. In all moments through which it passes, up to the last one,
registers and memory cells hold values of their types, so that truth values are zero or one and narrow
integers in their range. -/
theorem accepted_runs_sound (name : String) {p : Program} (hp : p.Sourced)
    (h : p.analyze.hasErrors = false) (hf : p.foreigns = []) :
    ∃ m, Module.ofProgram name p p.analyze = .ok m ∧
      (∃ enough, ∀ budget ≥ enough, ∀ s, m.execute budget ≠ .error .outOfBudget s) ∧
      (∀ budget f s, m.execute budget = .error (.fault f) s → f.Permitted p) ∧
      (∀ budget v s, m.execute budget = .ok v s → ∃ M, m.Passes M ∧ M.turn m = .ok (.over v) s) ∧
      (∀ budget f s, m.execute budget = .error (.fault f) s →
        ∃ M, m.Passes M ∧ M.turn m = .error (.fault f) s) ∧
      ∀ M, m.Passes M → M.Typed m := by
  have hw := hp.grammatical.wellTyped h
  obtain ⟨m, hm, -⟩ := exists_ofProgram name hw
  have hl := lowers_of_eq_ok hm
  obtain ⟨F, b, hF, hb⟩ := exists_entry hl hw
  have hids := hp.grammatical.ids_nodup
  obtain ⟨enough, hjumps⟩ := exists_jumps_lt p.functions
  refine ⟨m, hm, ⟨enough, fun budget hbudget s hs => ?_⟩, fun budget f s =>
    execute_permitted hl hw hids hf hF hb hjumps, fun budget => (Module.Passes.of_execute hF hb budget).1,
    fun budget => (Module.Passes.of_execute hF hb budget).2, fun M hM => (hM.sound hl hw hf).typed hl⟩
  rcases execute_ends hl hw hids hf fun g hg => Nat.lt_of_lt_of_le (hjumps g hg) hbudget with
    ⟨v, s', h'⟩ | ⟨f, s', h', -⟩
  · cases hs.symm.trans h'
  · cases hs.symm.trans h'

theorem accepted_runs_sound_sample : ∃ p next m,
    Program.parse Program.sampleSource 0 0 = .ok (p, next) ∧ p.analyze.hasErrors = false ∧
      p.foreigns = [] ∧ Module.ofProgram "sample" p p.analyze = .ok m ∧
      ∃ s M, m.execute 10 = .ok (some (.int 4)) s ∧ m.Passes M ∧
        M.turn m = .ok (.over (some (.int 4))) s ∧ M.Typed m := by
  obtain ⟨p, next, hparse, h, htest⟩ := Program.exists_of_accepts
    (show Program.accepts Program.sampleSource (fun p => p.foreigns.isEmpty && Returns p 4) = true by
      decide +kernel)
  rw [Bool.and_eq_true, List.isEmpty_iff] at htest
  obtain ⟨hf, htest⟩ := htest
  obtain ⟨m, hm, -, -, hends, -, htyped⟩ := accepted_runs_sound "sample" (.parsed hparse) h hf
  simp only [Returns, hm] at htest
  split at htest
  · next v s hrun =>
    obtain rfl := beq_iff_eq.mp htest
    obtain ⟨M, hM, hturn⟩ := hends 10 _ s hrun
    exact ⟨p, next, m, hparse, h, hf, hm, s, M, hrun, hM, hturn, htyped M hM⟩
  · cases htest

end Ssa

end StructLang
