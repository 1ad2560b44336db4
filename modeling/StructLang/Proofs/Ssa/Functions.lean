import StructLang.Proofs.Ssa.BodyKinds
import StructLang.Proofs.Ssa.Statements
import StructLang.Proofs.Ssa.Zero

/-!
# Running functions

The SSA code of a function does what the function means: it makes its slots, stores its parameters and
runs its body. By induction on how deep calls may nest, so does the whole module.
-/

namespace StructLang.Ssa

/-! ## Slots -/
variable {strings : List Constant}


namespace Activation

/-- Some of the slots are made, each with its memory cell, and nothing else has happened. -/
structure Made (c : Activation) (slots : List Instr) (regs : Registers) (mach : Machine) : Prop where
  size : mach.memory.size = c.base + slots.length
  placed : ∀ (k : Nat) r ty, slots[k]? = some (.alloca r ty) →
    regs.lookup r = some (.ptr ⟨.slot (c.base + k), []⟩)
  zero : ∀ (k : Nat) r ty, slots[k]? = some (.alloca r ty) →
    ∃ w, Ssa.zero c.module ty = pure w ∧ mach.memory[c.base + k]? = some w
  unset : ∀ r, r ∉ dests slots → regs.lookup r = none
  kept : c.entry.Keeps 0 0 mach

variable {c : Activation}

theorem made_nil : c.Made [] [] c.entry :=
  ⟨rfl, nofun, nofun, fun _ _ => rfl, .refl⟩

theorem Made.snoc (h : c.Made slots regs mach) (hnew : r ∉ dests slots)
    (hw : Ssa.zero c.module t = pure w) :
    ∃ regs' mach', c.steps regs [.alloca r t] mach = .ok regs' mach' ∧
      c.Made (slots ++ [.alloca r t]) regs' mach' := by
  have hsize := h.size
  have hcells : ∀ i < mach.memory.size, (mach.memory.push w)[i]? = mach.memory[i]? := by
    intro i hi
    rw [Array.getElem?_push, if_neg (Nat.ne_of_lt hi)]
  -- a slot of the list is one that was made before or the new one
  have hcases : ∀ (k : Nat) r' ty, (slots ++ [.alloca r t])[k]? = some (.alloca r' ty) →
      slots[k]? = some (.alloca r' ty) ∨ k = slots.length ∧ r' = r ∧ ty = t := by
    intro k r' ty hk
    rcases Nat.lt_trichotomy k slots.length with hlt | rfl | hgt
    · rw [List.getElem?_append_left hlt] at hk
      exact .inl hk
    · rw [List.getElem?_concat_length] at hk
      cases hk
      exact .inr ⟨rfl, rfl, rfl⟩
    · have hlength := (List.getElem?_eq_some_iff.mp hk).1
      rw [List.length_append, List.length_singleton] at hlength
      omega
  refine ⟨regs.assign r (.ptr ⟨.slot mach.memory.size, []⟩),
    { mach with memory := mach.memory.push w }, ?_, ?_, ?_, ?_, ?_, ?_⟩
  · simp only [steps, Ssa.steps, step, hw, pure_bind, bind_pure]
    rfl
  · simp [hsize, Nat.add_assoc]
  · intro k r' ty hk
    rw [Registers.lookup_assign]
    rcases hcases k r' ty hk with hk | ⟨rfl, rfl, rfl⟩
    · have hmem : r' ∈ dests slots := mem_dests.mpr ⟨_, List.mem_of_getElem? hk, rfl⟩
      rw [if_neg (by rintro rfl; exact hnew hmem)]
      exact h.placed k r' ty hk
    · rw [if_pos rfl, hsize]
  · intro k r' ty hk
    rcases hcases k r' ty hk with hk | ⟨rfl, rfl, rfl⟩
    · obtain ⟨w', hw', hcell⟩ := h.zero k r' ty hk
      exact ⟨w', hw', (hcells _ (Array.getElem?_eq_some_iff.mp hcell).1).trans hcell⟩
    · exact ⟨w, hw, by simp [← hsize]⟩
  · intro r' hr'
    rw [dests_append, List.mem_append, not_or] at hr'
    rw [Registers.lookup_assign, if_neg]
    · exact h.unset r' hr'.1
    · simpa [dests, Instr.dest?] using hr'.2
  · have hkept := h.kept.size
    refine ⟨?_, fun i hi hout => (hcells i (by omega)).trans (h.kept.cells i hi hout), h.kept.output⟩
    simp
    omega

theorem Made.append (h : c.Made slots regs mach) (hnodup : (dests (slots ++ new)).Nodup)
    (hzero : ∀ i ∈ new, ∃ r t w, i = .alloca r t ∧ Ssa.zero c.module t = pure w) :
    ∃ regs' mach', c.steps regs new mach = .ok regs' mach' ∧ c.Made (slots ++ new) regs' mach' := by
  induction new generalizing slots regs mach with
  | nil => exact ⟨regs, mach, rfl, by simpa using h⟩
  | cons i new ih =>
    obtain ⟨⟨r, t, w, rfl, hw⟩, hrest⟩ := List.forall_mem_cons.mp hzero
    have hnew : r ∉ dests slots := by
      rw [dests_append] at hnodup
      intro hm
      exact (List.nodup_append.mp hnodup).2.2 r hm r (mem_dests.mpr ⟨_, List.mem_cons_self, rfl⟩) rfl
    obtain ⟨regs1, mach1, hstep, hmade⟩ := h.snoc hnew hw
    rw [List.append_cons] at hnodup ⊢
    obtain ⟨regs2, mach2, hsteps, hmade⟩ := ih hmade hnodup hrest
    refine ⟨regs2, mach2, ?_, hmade⟩
    rw [← List.singleton_append, steps_append, Execution.bind_of_ok hstep]
    exact hsteps

theorem Made.running (h : c.Made c.final.slots regs mach) (hs : s.slots = []) :
    c.Running s regs mach := by
  refine ⟨fun r hr => ?_, h.placed, fun r _ => h.unset r, Nat.le_of_eq h.size.symm,
    fun k r ty _ => h.zero k r ty⟩
  rw [hs] at hr
  cases hr

end Activation

/-! ## Parameters -/

def Conveys (symbols : Symbols) (mach : Machine) (bound : Nat) (byReference : Bool)
    (ty : StructLang.Ty) (v : Meaning.Value) (w : Value) : Prop :=
  if byReference then ∃ a, w = .ptr a ∧ Holds symbols mach bound a ty v else Stands symbols ty v w

/-- Arguments are what parameters take. -/
inductive Taken (symbols : Symbols) (mach : Machine) (bound : Nat) :
    List Param → List Meaning.Value → List Value → Prop where
  | nil : Taken symbols mach bound [] [] []
  | cons {p v w ps vs ws} (h : Conveys symbols mach bound p.byReference p.source v w)
      (hs : Taken symbols mach bound ps vs ws) :
      Taken symbols mach bound (p :: ps) (v :: vs) (w :: ws)

theorem Passed.taken {g : FnHeader}
    (h : Passed symbols mach bound g.receiver.isSome g.signature vs ws)
    (hp : paramsOf g = .ok params) : Taken symbols mach bound params vs ws := by
  have hvalues : ∀ {qs own vs ws}, List.Forall₂ (fun (q : TypedName) (p : Param) => ∃ t,
      Ty.ofSource q.ty = .ok t ∧ p = ⟨q.name, t, q.ty, false⟩) qs own →
      Passed symbols mach bound false (qs.map TypedName.ty) vs ws →
      Taken symbols mach bound own vs ws := by
    intro qs own vs ws hown hpassed
    induction hown generalizing vs ws with
    | nil =>
      cases hpassed
      exact .nil
    | cons hq _ ih =>
      obtain ⟨t, -, rfl⟩ := hq
      cases hpassed with
      | value hstands hpassed => exact .cons hstands (ih hpassed)
  obtain ⟨own, rfl, hown⟩ := paramsOf_eq_ok hp
  rw [FnHeader.signature] at h
  cases hr : g.receiver with
  | none =>
    rw [hr] at h
    exact hvalues hown h
  | some ty =>
    rw [hr] at h
    cases h with
    | receiver hholds hpassed => exact .cons ⟨_, rfl, hholds⟩ (hvalues hown hpassed)

section

variable {c : Activation}

open Activation

/-- An argument goes to the slot that is given out next. -/
theorem Activation.Holding.parameter (h : c.Holding s slots store regs mach) (slot : Slot)
    (hle : (s.allocate t).Le c.final) (hhoused : s.slots.length < c.housed)
    (haddress : slot.address = s.nextRegister)
    (hbelow : ∀ slot ∈ slots, slot.address < s.nextRegister) (harg : c.args[index]? = some w)
    (hw : Conveys c.symbols c.entry c.base slot.byReference slot.ty v w) :
    ∃ mach', c.steps regs [.store t (.param index) (.register slot.address)] mach = .ok regs mach' ∧
      c.Holding (s.allocate t) (slots ++ [slot]) (store ++ [v]) regs mach' := by
  have hslot := slots_allocate hle
  obtain ⟨heval, x, -, hx⟩ := h.running.slot hle
  have hsize := (Array.getElem?_eq_some_iff.mp hx).1
  have hparam : c.eval regs (.param index) = pure w := by simp [eval, Ssa.eval, harg]
  have hholding : c.Holding (s.allocate t) slots store regs mach :=
    ⟨h.running.allocate t, h.stored, h.distinct, h.kept⟩
  have hnew : slot.address ∉ slots.map Slot.address := by
    intro hm
    obtain ⟨other, hother, heq⟩ := List.mem_map.mp hm
    exact Nat.lt_irrefl _ (haddress ▸ heq ▸ hbelow other hother)
  rw [← haddress] at hslot heval
  refine ⟨_, steps_store hparam heval hx rfl, hholding.snoc hslot ?_ hnew
    ⟨s.slots.length, t, hslot, hhoused, ?_⟩⟩
  · simp [Supply.allocate]
  · rw [Conveys] at hw
    by_cases href : slot.byReference = true
    · rw [if_pos href] at hw ⊢
      obtain ⟨a, rfl, hholds⟩ := hw
      have hkept := h.kept.all_trans (mach.keeps_put (c.base + s.slots.length) (.ptr a))
        (Nat.le_add_right _ _)
      have hframe : c.entry.Keeps c.base 0 (mach.put (c.base + s.slots.length) (.ptr a)) := hkept.of_all
      exact ⟨a, Machine.getElem?_put hsize _, hholds.keeps hframe⟩
    · rw [if_neg href] at hw ⊢
      exact ⟨_, w, w, rfl, by omega, Machine.getElem?_put hsize w, rfl, hw⟩

/-- The code that stores parameters puts the arguments into slots. -/
theorem ParamsCode.runs (h : ParamsCode index storage params s storage' code s')
    (htaken : Taken c.symbols c.entry c.base params vs ws) (hargs : c.args.drop index = ws)
    (hle : s'.Le c.final) (hhoused : s'.slots.length ≤ c.housed)
    (hd : ∀ p ∈ params, p.source.Declared c.symbols)
    (hbelow : ∀ slot ∈ slots, slot.address < s.nextRegister)
    (hl : c.Located names storage places slots) (hhold : c.Holding s slots store regs mach) :
    ∃ mach' slots', c.steps regs code mach = .ok regs mach' ∧
      (∀ slot ∈ slots', slot.address < s'.nextRegister) ∧
      c.Located (params.foldl bindParam names) storage'
        (Meaning.bindNames places slots.length (params.map Param.name)) slots' ∧
      c.Holding s' slots' (store ++ vs) regs mach' := by
  induction h generalizing names places slots store mach vs ws with
  | nil =>
    cases htaken
    rw [List.append_nil]
    exact ⟨mach, slots, rfl, hbelow, hl, hhold⟩
  | @cons index storage p rest s _ code s' hrest ih =>
    obtain ⟨hdp, hd⟩ := List.forall_mem_cons.mp hd
    have hle' := hrest.draws.le
    have hroom : s.slots.length < s'.slots.length := by
      have := hle'.length
      simp only [Supply.allocate, List.length_append, List.length_singleton] at this
      omega
    cases htaken with
    | @cons _ v w _ vs ws hw htaken =>
      have harg : c.args[index]? = some w := by
        have := congrArg (·[0]?) hargs
        simpa using this
      have hargs' : c.args.drop (index + 1) = ws := by
        rw [← List.tail_drop, hargs]
        rfl
      obtain ⟨mach1, hstore, hhold1⟩ := hhold.parameter
        ⟨s.nextRegister, p.source, p.byReference⟩ (hle'.trans hle) (Nat.lt_of_lt_of_le hroom hhoused) rfl
        hbelow harg hw
      have hbelow1 : ∀ slot ∈ slots ++ [⟨s.nextRegister, p.source, p.byReference⟩],
          slot.address < (s.allocate p.ty).nextRegister := by
        intro slot hm
        rcases List.mem_append.mp hm with hm | hm
        · exact Nat.lt_succ_of_lt (hbelow slot hm)
        · rw [List.mem_singleton.mp hm]
          exact Nat.lt_succ_self _
      obtain ⟨mach2, slots', hsteps, hbelow2, hl2, hhold2⟩ := ih htaken hargs' hle hhoused hd hbelow1
        (hl.define p.name (b := ⟨p.source, false, p.byReference⟩) hdp rfl rfl) hhold1
      rw [List.length_append, List.length_singleton] at hl2
      rw [List.append_assoc] at hhold2
      refine ⟨mach2, slots', ?_, hbelow2, hl2, hhold2⟩
      rw [← List.singleton_append, Activation.steps_append, Execution.bind_of_ok hstore]
      exact hsteps

end

/-! ## Hoisted declarations -/

theorem HoistCode.lookup (h : HoistCode (.ofFindings f) ids s declared s') {id : Nat}
    (hr : declared.lookup id = some r) :
    s.nextRegister ≤ r ∧ ∃ (k : Nat) (t : Ty), s'.slots[k]? = some (.alloca r t) := by
  induction h with
  | nil => cases hr
  | @cons id' ids ty t s declared s' _ _ hids ih =>
    rw [List.lookup_cons] at hr
    split at hr
    · cases hr
      obtain ⟨new, hnew, -⟩ := hids.draws.le.slots
      refine ⟨Nat.le_refl _, s.slots.length, t, ?_⟩
      rw [hnew]
      simp [Supply.allocate]
    · obtain ⟨hle, hslot⟩ := ih hr
      exact ⟨Nat.le_of_succ_le hle, hslot⟩

theorem HoistCode.lookup_inj (h : HoistCode (.ofFindings f) ids s declared s') {id : Nat}
    (hr : declared.lookup id = some r) (hr' : declared.lookup id' = some r) : id = id' := by
  induction h with
  | nil => cases hr
  | cons _ _ hids ih =>
    rw [List.lookup_cons] at hr hr'
    -- the slots of later declarations come after the one of the first
    split at hr <;> split at hr'
    · next _ heq _ heq' => rw [beq_iff_eq.mp heq, beq_iff_eq.mp heq']
    · cases hr
      exact absurd (hids.lookup hr').1 (Nat.not_succ_le_self _)
    · cases hr'
      exact absurd (hids.lookup hr).1 (Nat.not_succ_le_self _)
    · exact ih hr hr'

theorem HoistCode.homes {c : Activation} (h : HoistCode (.ofFindings f) ids s declared s')
    (hle : s'.Le c.final) (hhoused : c.housed = s'.slots.length) : c.Homes declared := by
  refine ⟨fun id r hr => ?_, fun id id' r => h.lookup_inj⟩
  obtain ⟨-, k, t, hk⟩ := h.lookup hr
  have hlt := (List.getElem?_eq_some_iff.mp hk).1
  obtain ⟨new, hnew, -⟩ := hle.slots
  refine ⟨k, t, ?_, hhoused ▸ hlt⟩
  rw [hnew, List.getElem?_append_left hlt]
  exact hk

/-! ## Functions -/

open Activation

theorem Draft.Open.terminateIfOpen_eq {d : Draft} (h : d.Open) (t : Terminator) :
    d.terminateIfOpen t = d.terminate t := by
  obtain ⟨b, hb, hopen⟩ := h
  simp [Draft.terminateIfOpen, Draft.isTerminated, hb, hopen]

theorem runBlocks_start {c : Activation} (hc : c.Code F D) (hle : (Draft.start strings).Le D)
    (budget : Nat) : runBlocks c.module c.call F c.args (budget + 1) [] 0 =
      c.steps [] D.slots >>= fun regs => c.resume F D (.start strings) budget regs := by
  obtain ⟨b', hb', -⟩ := hle.blocks 0 _ rfl
  have hF : F.blocks[0]? = some { b' with instrs := D.slots ++ b'.instrs } := by
    rw [hc.blocks]
    exact withSlots_entry hb'
  have hresume : ∀ regs, c.resume F D (.start strings) budget regs =
      c.finish F budget regs b'.instrs b'.terminator :=
    fun regs => resume_eq (d := .start strings) rfl hb'
  simp only [runBlocks, hF, hresume, finish]
  rw [← bind_assoc]
  exact congrArg (· >>= _) (steps_append [] D.slots b'.instrs)

theorem follows_end {c : Activation} {g : FnDef}
    (hret : Ty.ofSource g.ret = .ok ret) (hname : F.name = g.linkage)
    (hkept : c.entry.Keeps 0 0 mach) :
    bridge.Follows (if g.ret = .void then .ok .unit else .error (.noReturn g.linkage))
      (c.finish F budget regs [] (some (if ret = .void then .ret none else .unreachable))) mach
      (c.Ends g.ret) := by
  by_cases hvoid : g.ret = .void
  · rw [hvoid] at hret
    cases hret
    rw [if_pos hvoid, if_pos rfl]
    refine .ok rfl fun _ => ⟨hkept, ?_⟩
    rw [Returned, if_pos hvoid]
    exact ⟨rfl, fun w hw => by cases hw⟩
  · rw [if_neg hvoid, if_neg (ofSource_ne_void hret hvoid)]
    refine .error rfl ?_
    rw [hname]
    exact .noReturn

theorem exists_made {c : Activation} (hc : c.Sound meaning)
    (hle : (Draft.start strings).supply.Le c.final) (hs : c.final.Holdable c.symbols) :
    ∃ regs mach, c.steps [] c.final.slots c.entry = .ok regs mach ∧
      c.Made c.final.slots regs mach := by
  obtain ⟨new, hnew, hnumbered, -⟩ := hle.slots
  have hslots : c.final.slots = new := hnew
  rw [← hslots] at hnumbered
  refine made_nil.append hnumbered.1 fun i hi => ?_
  obtain ⟨r, t, rfl, rfl | ⟨ty, hty, ht⟩⟩ := hs i hi
  · refine ⟨r, .ptr, .null, rfl, ?_⟩
    rw [zero]
    cases c.module.structs.length <;> rfl
  · obtain ⟨w, hw, -⟩ := hc.zero ty t hty ht
    exact ⟨r, t, w, rfl, hw⟩

theorem paramNames_eq (h : paramsOf g = .ok params) :
    params.map Param.name = Meaning.paramNames g := by
  obtain ⟨own, rfl, hown⟩ := paramsOf_eq_ok h
  have hnames : List.Forall₂ (· = ·) (g.params.map TypedName.name) (own.map Param.name) := by
    rw [List.forall₂_map_left_iff, List.forall₂_map_right_iff]
    refine hown.imp fun q p hq => ?_
    obtain ⟨t, -, rfl⟩ := hq
    rfl
  rw [List.forall₂_eq_eq_eq] at hnames
  rw [Meaning.paramNames, List.map_append, hnames, List.map_map]
  rfl

/-- A call reaches the body of a function with the arguments in slots. -/
theorem runBlocks_body {c : Activation} (hset : c.Setting F D declared meaning)
    (hp : ParamsCode 0 Scope.empty.push params (Draft.start strings).supply storage code s1)
    (hh : HoistCode (.ofFindings c.findings) ids s1 declared s2)
    (hle : ((Draft.start strings).extend s2 code).Le D) (hhoused : c.housed = s2.slots.length)
    (hslots : c.final.Holdable c.symbols) (hsym : c.symbols.Sound)
    (hd : ∀ p ∈ params, p.source.Declared c.symbols)
    (htaken : Taken c.symbols c.entry c.base params vs c.args) (budget : Nat) :
    ∃ regs mach slots, runBlocks c.module c.call F c.args (budget + 1) [] 0 c.entry =
        c.resume F D ((Draft.start strings).extend s2 code) budget regs mach ∧
      (∀ slot ∈ slots, slot.address < s1.nextRegister) ∧
      c.Located (params.foldl bindParam Scope.empty.push) storage
        (Meaning.bindNames Scope.empty.push 0 (params.map Param.name)) slots ∧
      c.At s2 slots vs regs mach := by
  have hopen := Draft.open_start strings
  have hdraws := hp.draws.append hh.draws
  rw [List.append_nil] at hdraws
  have hstart := (hopen.grows_extend hdraws).le.trans hle
  have hfinal : s2.Le c.final := hset.code.final ▸ hle.supply
  have hlength := hh.draws.le.length
  obtain ⟨regs, mach, hmake, hmade⟩ :=
    exists_made hset.sound (hset.code.final ▸ hstart.supply) hslots
  have hempty : c.Holding (Draft.start strings).supply [] [] regs mach :=
    ⟨hmade.running rfl, .nil, .nil, hmade.kept⟩
  have hnone : ∀ slot ∈ ([] : List Slot), slot.address < (Draft.start strings).supply.nextRegister := by
    simp
  obtain ⟨mach', slots, hstore, hbelow, hl, hhold⟩ := hp.runs htaken rfl (hh.draws.le.trans hfinal)
    (by omega) hd hnone ⟨.empty hsym, nofun⟩ hempty
  have hrun : runBlocks c.module c.call F c.args (budget + 1) [] 0 c.entry = _ :=
    congrFun (runBlocks_start hset.code hstart budget) c.entry
  have hmake' : c.steps [] D.slots c.entry = .ok regs mach := by
    rw [hset.code.final] at hmake
    exact hmake
  rw [Execution.bind_of_ok hmake', resume_extend hopen hle, Execution.bind_of_ok hstore] at hrun
  refine ⟨regs, mach', slots, hrun, hbelow, hl, ⟨hhold.running.skip hh.draws.le, hhold.stored,
    hhold.distinct, hhold.kept⟩, Nat.le_of_eq hhoused⟩

/-- The code of a function does what the function means. -/
theorem FunctionCode.follows
    (h : FunctionCode (.ofFindings f) strings g F strings') (hsym : f.symbols.Sound)
    (hg : g.toFnHeader ∈ f.symbols.functions) (hbody : BlockTyped f g.ret g.startScope g.body)
    (hnodup : g.body.declIds.Nodup) {call : Call}
    (hm : ∀ name d, f.symbols.struct? name = some d → ∃ s, m.struct? name = some s ∧ lowerStruct d = .ok s)
    (hsound : ∀ args final entry housed, (⟨m, call, args, f, final, entry, housed⟩ : Activation).Sound meaning)
    (hpassed : Passed f.symbols mach mach.memory.size g.receiver.isSome g.signature vs ws)
    (hbudget : g.body.jumps < budget) :
    bridge.Follows (Meaning.invoke f meaning g vs) (runBlocks m call F ws budget [] 0) mach
      fun v result mach' => mach.Keeps 0 0 mach' ∧ Returned f.symbols g.ret v result := by
  cases h with
  | @mk params ret D hparams hret hb =>
    have hslots : D.supply.Holdable f.symbols := fun i hi =>
      ((hb.kinded (m := m) rfl ⟨rfl, hm⟩ (.unasked g) nofun hsym hg hbody hparams hret).1.slots i hi).1
    cases hb with
    | @mk storage code s1 declared s2 d1 hp hh hb =>
      generalize hend : (if ret = .void then Terminator.ret none else .unreachable) = t at hslots
      generalize hD : d1.terminateIfOpen t = D at hslots
      let c : Activation := ⟨m, call, ws, f, D.supply, mach, s2.slots.length⟩
      obtain ⟨params', hparams', hdeclared, hstart⟩ := exists_paramsOf
        (fun ty hty => (hsym.receiver _ hg ty hty).1) (hsym.params _ hg)
      obtain rfl : params = params' := Except.ok.inj (hparams.symm.trans hparams')
      have hopen := (Draft.open_start strings).extend s2 code
      have hgrows := hb.grows hopen.lt
      have hle1 : d1.Le D := hD ▸ (Draft.grows_terminateIfOpen hgrows.lt t).le
      have hle := hgrows.le.trans hle1
      have hset : c.Setting ⟨g.linkage, params.map fun p => (p.name, p.ty), ret,
          withSlots D.slots D.blocks⟩ D declared meaning :=
        ⟨hsound _ _ _ _, ⟨rfl, rfl⟩, hh.homes hle.supply rfl⟩
      obtain ⟨budget, rfl⟩ := Nat.exists_eq_add_of_le' (Nat.succ_le_of_lt (Nat.zero_lt_of_lt hbudget))
      obtain ⟨regs, mach', slots, hrun, hbelow, hl, hat⟩ := runBlocks_body hset hp hh hle rfl hslots hsym
        hdeclared (hpassed.taken hparams) budget
      rw [hstart, paramNames_eq hparams] at hl
      have hnew : Unused declared g.body.declIds slots := by
        refine ⟨hnodup, fun id _ r hr hm => ?_⟩
        obtain ⟨slot, hslot, rfl⟩ := List.mem_map.mp hm
        exact Nat.lt_irrefl _ (Nat.lt_of_lt_of_le (hbelow slot hslot) (hh.lookup hr).1)
      have hgoes := hb.goes hset hopen hl hat hbody hle1 (show 0 + g.body.jumps ≤ budget by omega) hnew
      refine .step hrun (hgoes.follows fun places store y mach'' hn => ?_)
      obtain ⟨b, regs', later, rfl, -, ho, -, -, hat'⟩ := hn
      have hterminate : (d1.terminate t).Le D := by
        rw [← hD, ho.terminateIfOpen_eq]
        exact .refl
      rw [resume_terminate ho hterminate, ← hend]
      exact follows_end hret rfl hat'.kept

/-! ## Modules -/

/-- Calls do what the program means, however deep they may nest. -/
theorem callAt_follows (hm : m.Lowers p) (hp : p.WellTyped) (hids : p.ids.Nodup)
    (hf : p.foreigns = []) (hbudget : ∀ g ∈ p.functions, g.body.jumps < budget) (depth : Nat) :
    CallsFollow p.symbols (Meaning.callAt p depth) (callAt m budget depth) := by
  induction depth with
  | zero =>
    intro h hh vs ws mach hpassed
    obtain ⟨g, hg, rfl⟩ := List.mem_map.mp hh
    obtain ⟨F, hF, -⟩ := hm.function? hp hg
    have hmeaning : Meaning.callAt p 0 g.linkage vs = .error .callDepth := by
      rw [Meaning.callAt, hp.find?_linkage hg]
    have hcall : callAt m budget 0 g.linkage ws = fault .callDepth := by
      rw [callAt, hF]
    rw [hmeaning, hcall]
    exact .error rfl .callDepth
  | succ depth ih =>
    intro h hh vs ws mach hpassed
    obtain ⟨g, hg, rfl⟩ := List.mem_map.mp hh
    obtain ⟨F, hF, strings, strings', hcode⟩ := hm.function? hp hg
    have hmeaning : Meaning.callAt p (depth + 1) g.linkage vs =
        Meaning.invoke p.findings (Meaning.callAt p depth) g vs := by
      rw [Meaning.callAt, hp.find?_linkage hg]
    have hcall : callAt m budget (depth + 1) g.linkage ws =
        runBlocks m (callAt m budget depth) F ws budget [] 0 := by
      rw [callAt, hF]
    rw [hmeaning, hcall]
    have hnodup : g.body.declIds.Nodup := by
      refine g.body.declIds_sublist.nodup ?_
      rw [p.ids_eq] at hids
      exact (List.nodup_flatMap.mp hids).1 g hg
    exact hcode.follows hp.symbols hh (hp.bodies g hg) hnodup (fun _ _ hd => hm.structs.struct? hd)
      (fun _ _ _ _ => ⟨ih, hf, fun ty t hty ht => zero_stands hm hp hty ht⟩) hpassed (hbudget g hg)

end StructLang.Ssa
