import StructLang.Proofs.Ssa.CheckedCode
import StructLang.Proofs.Ssa.Soundness

/-!
# Runs of checked modules

A module that passes the check can be written by hand, with loops and with blocks that control never
reaches. Its runs never jump to a missing block, fall off the end of one, miss an argument or call an
unknown function, and a register that is read was assigned, unless it should hold the result of a
foreign function, which need not give one. The invariant: in every invocation under way, all registers
are assigned whose definitions come before the place on every way there.
-/

namespace StructLang.Ssa

open Execution

/-! ## Registers that are assigned -/

def Definition.IsForeign (m : Module) (f : Function) (d : Definition) : Prop :=
  ∃ b i, f.blocks[d.block]? = some b ∧ b.instrs[d.index]? = some i ∧ i.dest? = some d.register ∧
    i.CallsForeign m

/-- In front of a place every register is assigned whose definition comes before it on every way, if
it is no call of a foreign function. -/
def Ready (m : Module) (f : Function) (regs : Registers) (k n : Nat) : Prop :=
  ∀ d ∈ definitions f.blocks, (f.context m).reaches d ⟨k, "", n⟩ = true →
    (regs.lookup d.register).isSome = true ∨ d.IsForeign m f

def Registers.Grow (regs regs' : Registers) : Prop :=
  ∀ r, (regs.lookup r).isSome = true → (regs'.lookup r).isSome = true

theorem Registers.grow_assign (regs : Registers) (r : Register) (v : Value) :
    regs.Grow (regs.assign r v) := by
  intro r' h
  rw [Registers.lookup_assign]
  split
  · rfl
  · exact h

section

variable {args : List Value} {d : Definition}

theorem Checked.hasForeignResult (hc : Checked m f) (h : d.IsForeign m f) :
    f.HasForeignResult m d.register := by
  obtain ⟨b, i, hb, hi, hr, hforeign⟩ := h
  refine ⟨b, List.mem_of_getElem? hb, i, List.mem_of_getElem? hi, hr, hforeign, ?_⟩
  intro b' hb' i' hi' hr'
  obtain ⟨k', hk'⟩ := List.mem_iff_getElem?.mp hb'
  obtain ⟨n', hn'⟩ := List.mem_iff_getElem?.mp hi'
  -- two definitions of one register are one definition
  have hd : (⟨d.register, d.block, d.index, i.resultTy⟩ : Definition) ∈ definitions f.blocks :=
    mem_definitions.mpr ⟨b, i, hb, hi, hr, rfl⟩
  have hd' : (⟨d.register, k', n', i'.resultTy⟩ : Definition) ∈ definitions f.blocks :=
    mem_definitions.mpr ⟨b', i', hk', hn', hr', rfl⟩
  have heq := List.inj_on_of_nodup_map hc.once hd hd' rfl
  rw [Definition.mk.injEq] at heq
  obtain ⟨-, rfl, rfl, -⟩ := heq
  cases hb.symm.trans hk'
  exact (Option.some.inj (hi.symm.trans hn')).symm

theorem Ready.start : Ready m f [] 0 0 := by
  intro d hd h
  unfold Context.reaches at h
  split at h
  · simp at h
  · next hne => exact absurd (inTable_dominators_zero h) hne

theorem Ready.next (h : Ready m f regs k n) (hb : f.blocks[k]? = some b)
    (hi : b.instrs[n]? = some i) (hgrow : regs.Grow regs')
    (hdest : ∀ r, i.dest? = some r → (regs'.lookup r).isSome = true ∨ i.CallsForeign m) :
    Ready m f regs' k (n + 1) := by
  intro d hd hreaches
  by_cases hlast : d.block = k ∧ d.index = n
  · obtain ⟨b', i', hb', hi', hr, -⟩ := mem_definitions.mp hd
    rw [hlast.1] at hb'
    cases hb.symm.trans hb'
    rw [hlast.2] at hi'
    cases hi.symm.trans hi'
    rcases hdest _ hr with hset | hforeign
    · exact .inl hset
    · exact .inr ⟨b, i, hlast.1 ▸ hb, hlast.2 ▸ hi, hr, hforeign⟩
  · refine (h d hd ?_).imp (hgrow _) id
    unfold Context.reaches at hreaches ⊢
    by_cases hk : d.block = k
    · rw [if_pos hk, decide_eq_true_eq] at hreaches ⊢
      have hne : d.index ≠ n := fun heq => hlast ⟨hk, heq⟩
      dsimp only at hreaches ⊢
      omega
    · rw [if_neg hk] at hreaches ⊢
      exact hreaches

theorem Ready.jump (h : Ready m f regs k b.instrs.length) (hb : f.blocks[k]? = some b)
    (htarget : target ∈ b.successors) : Ready m f regs target 0 := by
  intro d hd hreaches
  unfold Context.reaches at hreaches
  split at hreaches
  · simp at hreaches
  · next hne =>
    have hdom : InTable (dominators f.blocks) k d.block :=
      inTable_dominators_edge hreaches hne ⟨b, hb, htarget⟩
    apply h d hd
    unfold Context.reaches
    by_cases hk : d.block = k
    · obtain ⟨b', i, hb', hi, -⟩ := mem_definitions.mp hd
      rw [hk] at hb'
      cases hb.symm.trans hb'
      rw [if_pos hk, decide_eq_true_eq]
      exact (List.getElem?_eq_some_iff.mp hi).1
    · rw [if_neg hk]
      exact hdom

/-! ## Faults of single steps -/

/-- What the check does not rule out as the end of code in a function. -/
def MayStop (m : Module) (f : Function) : Stop Fault → Prop
  | .fault e => e.Remains m f
  | .outOfBudget => True

theorem MayStop.of_isPlain (e : Fault) (h : e.isPlain = true) : MayStop m f (.fault e) :=
  Fault.Remains.of_isPlain h

theorem MayStop.zero (ty : Ty) : Stops (zero m ty) (MayStop m f) :=
  stops_zero (fails_zeroValue MayStop.of_isPlain trivial _ ty)

/-- An invocation stands at a place. -/
structure At (m : Module) (f : Function) (args : List Value) (regs : Registers) (k n : Nat) : Prop where
  checked : Checked m f
  args : args.length = f.params.length
  ready : Ready m f regs k n

namespace At

variable (h : At m f args regs k n)
include h

/-- An operand that passed the check has a value, or it is what a foreign function left out. -/
theorem eval (hv : ∃ ty, (f.context m).operandTy ⟨k, label, n⟩ v = .ok ty) :
    Stops (eval m args regs v) (MayStop m f) := by
  obtain ⟨ty, hv⟩ := hv
  cases v with
  | register r =>
    simp only [Context.operandTy] at hv
    split at hv
    · cases hv
    · next d hd =>
      split at hv
      · next hreaches =>
        have hr : d.register = r := by simpa using List.find?_some hd
        subst hr
        rw [Ssa.eval]
        split
        · exact .pure _
        · next hnone =>
          rcases h.ready d (List.mem_of_find?_eq_some hd) hreaches with hset | hforeign
          · rw [hnone] at hset
            cases hset
          · exact .throw (h.checked.hasForeignResult hforeign)
      · cases hv
  | zero ty => exact MayStop.zero ty
  | param i =>
    simp only [Context.operandTy] at hv
    split at hv
    · next p hp =>
      have hlt : i < args.length := h.args ▸ (List.getElem?_eq_some_iff.mp hp).1
      rw [Ssa.eval, List.getElem?_eq_getElem hlt]
      exact .pure _
    · cases hv
  | int v ty | float v ty | global name => exact .pure _

theorem step {i : Instr} (hi : (f.context m).checkInstr ⟨k, label, n⟩ i = .ok ())
    (hcallee : i.callee? m = none) :
    Stops (step m (Ssa.callForeign m) args regs i) (MayStop m f) := by
  refine stops_step MayStop.of_isPlain MayStop.zero
    (fun v hv => h.eval (Context.checkInstr_operands hi v hv)) ?_
  rintro dest name ret params operands rfl
  refine stops_callForeign MayStop.of_isPlain fun hnone => ?_
  have hname : m.function? name = none := Option.map_eq_none_iff.mp hcallee
  obtain ⟨hchecked, -⟩ := Context.checkInstr_call hi
  rw [checkCallee, show (f.context m).module = m from rfl, hname, hnone] at hchecked
  cases hchecked

theorem exit (ht : (f.context m).checkTerminator ⟨k, label, n⟩ t = .ok ()) :
    Stops (exit m f args regs (some t)) (MayStop m f) :=
  stops_exit MayStop.of_isPlain (fun v hv => h.eval (Context.checkTerminator_operands ht v hv))
    fun _ => trivial

end At

/-! ## Results of single steps -/

/-- Registers after an instruction: what was assigned stays so, and its own register is assigned,
unless it is a call of a foreign function. -/
def Assigned (m : Module) (regs : Registers) (i : Instr) (regs' : Registers) : Prop :=
  regs.Grow regs' ∧ ∀ r, i.dest? = some r → (regs'.lookup r).isSome = true ∨ i.CallsForeign m

theorem Assigned.assign (hr : i.dest? = some r) (v : Value) :
    Assigned m regs i (regs.assign r v) := by
  refine ⟨regs.grow_assign r v, fun r' hr' => .inl ?_⟩
  cases hr.symm.trans hr'
  rw [Registers.lookup_assign, if_pos rfl]
  rfl

theorem Assigned.none (hr : i.dest? = .none ∨ i.CallsForeign m) :
    Assigned m regs i regs := by
  refine ⟨fun _ h => h, fun r hr' => ?_⟩
  rcases hr with hr | hr
  · cases hr.symm.trans hr'
  · exact .inr hr

theorem step_assigned (hcallee : i.callee? m = none) (s : Machine) :
    Ensures (step m (callForeign m) args regs i) s fun regs' _ => Assigned m regs i regs' := by
  cases i with
  | alloca r ty | load r ty a =>
    exact (ensures_true _ _).bind fun _ _ _ => (ensures_true _ _).bind fun _ _ _ => .pure (.assign rfl _)
  | store ty v a =>
    exact (ensures_true _ _).bind fun _ _ _ => (ensures_true _ _).bind fun _ _ _ =>
      (ensures_true _ _).bind fun _ _ _ => .pure (.none (.inl rfl))
  | field r struct base index => exact (ensures_true _ _).bind fun _ _ _ => .pure (.assign rfl _)
  | arith r op ty l r' | compare r pred ty l r' =>
    exact (ensures_true _ _).bind fun _ _ _ => (ensures_true _ _).bind fun _ _ _ =>
      (ensures_true _ _).bind fun _ _ _ => .pure (.assign rfl _)
  | cast r op v source target =>
    exact (ensures_true _ _).bind fun _ _ _ => (ensures_true _ _).bind fun _ _ _ => .pure (.assign rfl _)
  | call dest name ret params operands =>
    have hforeign : Instr.CallsForeign m (.call dest name ret params operands) :=
      Option.map_eq_none_iff.mp hcallee
    refine (ensures_true _ _).bind fun _ _ _ => (ensures_true _ _).bind fun result _ _ => .pure ?_
    cases dest with
    | none => exact .none (.inl rfl)
    | some r =>
      cases result with
      | none => exact .none (.inr hforeign)
      | some v => exact .assign rfl v

theorem length_mapM (xs : List α) (g : α → Exec β) (s : Machine) :
    Ensures (xs.mapM g) s fun ys _ => ys.length = xs.length := by
  induction xs generalizing s with
  | nil => exact .pure rfl
  | cons a xs ih =>
    rw [List.mapM_cons]
    refine (ensures_true _ _).bind fun b s' _ => (ih s').bind fun bs s'' hbs => .pure ?_
    rw [List.length_cons, hbs, List.length_cons]

end

/-! ## Moments -/

/-- An invocation under way is at a place of a checked function. -/
structure Frame.Safe (m : Module) (f : Frame) (k : Nat) (b : Block) (done : List Instr) : Prop where
  block : f.func.blocks[k]? = some b
  code : b.instrs = done ++ f.code
  last : f.last = b.terminator
  place : At m f.func f.args f.regs k done.length

/-- Invocations wait for the result of a function, each at the call of the next one. -/
inductive Awaits (m : Module) : Function → List Frame → Prop where
  | nil {g} : Awaits m g []
  | cons {g f rest k b done dest name ret params operands code}
      (hcode : f.code = .call dest name ret params operands :: code)
      (hg : m.function? name = some g) (hsafe : Frame.Safe m f k b done)
      (hrest : Awaits m f.func rest) : Awaits m g (f :: rest)

def Moment.Safe (m : Module) (top : Frame) (callers : List Frame) : Prop :=
  (∃ k b done, Frame.Safe m top k b done) ∧ Awaits m top.func callers

def Turn.Safe (m : Module) : Turn → Prop
  | .on top callers _ => Moment.Safe m top callers
  | .over _ => True

section

variable {f : Frame}

variable {regs : Registers} {code : List Instr}

theorem Frame.Safe.enter (hc : Checked m g)
    (hargs : values.length = g.params.length) (hb : g.blocks[k]? = some b)
    (hready : Ready m g regs k 0) : Frame.Safe m (.enter g values regs b) k b [] :=
  ⟨hb, rfl, rfl, hc, hargs, hready⟩

theorem Frame.Safe.next (h : f.Safe m k b done) (hcode : f.code = i :: code)
    (hregs : Assigned m f.regs i regs) : Frame.Safe m { f with regs, code } k b (done ++ [i]) := by
  have hi : b.instrs[done.length]? = some i := by
    rw [h.code, hcode, List.getElem?_append_right (Nat.le_refl _), Nat.sub_self]
    rfl
  refine ⟨h.block, ?_, h.last, h.place.checked, h.place.args, ?_⟩
  · rw [h.code, hcode, List.append_assoc]
    rfl
  · rw [List.length_append]
    exact h.place.ready.next h.block hi hregs.1 hregs.2

theorem Frame.Safe.checkInstr (h : f.Safe m k b done) (hcode : f.code = i :: code) :
    (f.func.context m).checkInstr ⟨k, b.label, done.length⟩ i = .ok () := by
  apply h.place.checked.instr k done.length b i h.block
  rw [h.code, hcode, List.getElem?_append_right (Nat.le_refl _), Nat.sub_self]
  rfl

theorem Frame.Safe.call (h : f.Safe m k b done)
    (hcode : f.code = .call dest name ret params operands :: code)
    (hg : m.function? name = some g) :
    g.params.length = operands.length ∧ dest.isSome = (g.ret != .void) := by
  obtain ⟨hcallee, hlength, -, hdest⟩ := Context.checkInstr_call (h.checkInstr hcode)
  rw [checkCallee, show (f.func.context m).module = m from rfl, hg] at hcallee
  simp only at hcallee
  by_cases hparams : g.params.map Prod.snd = params
  · rw [if_neg (by simpa using hparams)] at hcallee
    have hret : ret = g.ret := by
      unfold expectTy at hcallee
      split at hcallee
      · assumption
      · cases hcallee
    rw [← hlength, ← hparams, List.length_map, ← hret]
    exact ⟨rfl, hdest⟩
  · rw [if_pos (by simpa using hparams)] at hcallee
    cases hcallee

/-- A block is left to a successor, or with a value if the function has a result type. -/
def Exit.Keeps (g : Function) (t : Terminator) : Exit → Prop
  | .ret v => g.ret ≠ .void → v.isSome = true
  | .goto target => target ∈ t.successors

theorem exit_keeps (ht : (g.context m).checkTerminator ⟨k, label, n⟩ t = .ok ()) (s : Machine) :
    Ensures (exit m g args regs (some t)) s fun e _ => e.Keeps g t := by
  cases t with
  | ret v =>
    cases v with
    | none =>
      refine .pure fun hret => ?_
      simp only [Context.checkTerminator, expectTy] at ht
      split at ht
      · next heq => exact absurd heq.symm hret
      · cases ht
    | some v => exact (ensures_true _ _).bind fun _ _ _ => .pure fun _ => rfl
  | jump target => exact .pure (List.mem_singleton_self target)
  | branch cond t e =>
    refine (ensures_true _ _).bind fun v _ _ => ?_
    split
    · refine .pure ?_
      simp only [Exit.Keeps, Terminator.successors]
      split <;> simp
    · exact .throw _
  | unreachable => exact .throw _

theorem resume_safe (h : f.Safe m k b done)
    (hcode : f.code = .call dest name ret params operands :: code) (hg : m.function? name = some g)
     (hv : g.ret ≠ .void → v.isSome = true) : ∃ done', Frame.Safe m (f.resume v) k b done' := by
  obtain ⟨-, hdest⟩ := h.call hcode hg
  have hresume : ∃ regs, f.resume v = { f with regs, code } ∧
      Assigned m f.regs (.call dest name ret params operands) regs := by
    unfold Frame.resume
    rw [hcode]
    cases dest with
    | none => exact ⟨f.regs, rfl, .none (.inl rfl)⟩
    | some r =>
      have hret : g.ret ≠ .void := by
        intro heq
        simp [heq] at hdest
      obtain ⟨w, rfl⟩ := Option.isSome_iff_exists.mp (hv hret)
      exact ⟨f.regs.assign r w, rfl, .assign rfl w⟩
  obtain ⟨regs, heq, hregs⟩ := hresume
  rw [heq]
  exact ⟨_, h.next hcode hregs⟩

theorem begin_safe (hm : m.check = .ok ())
    (hcode : f.code = .call dest name ret params operands :: code) (hg : m.function? name = some g)
    (h : f.Safe m k b done) (hcallers : Awaits m f.func callers)
    (hvalues : values.length = operands.length) (s : Machine) :
    Ensures (begin g (f :: callers) values) s (fun t _ => t.Safe m) ∧
      Stops (begin g (f :: callers) values) (MayStop m f.func) := by
  have hc : Checked m g := m.checked hm (List.mem_of_find?_eq_some hg)
  have hlt : 0 < g.blocks.length := List.length_pos_iff.mpr hc.nonempty
  unfold begin
  split
  · exact ⟨.throw _, .throw trivial⟩
  · rw [List.getElem?_eq_getElem hlt]
    refine ⟨.pure ⟨⟨0, _, [], .enter hc ?_ (List.getElem?_eq_getElem hlt) .start⟩, ?_⟩, .pure _⟩
    · exact hvalues.trans (h.call hcode hg).1.symm
    · exact .cons hcode hg h hcallers

theorem leave_safe (h : f.Safe m k b done) (hcode : f.code = [])
    (hcallers : Awaits m f.func callers) (ht : b.terminator = some t)
    (he : e.Keeps f.func t) (s : Machine) : Ensures (leave f callers e) s (fun t _ => t.Safe m) ∧
      Stops (leave f callers e) (MayStop m f.func) := by
  cases e with
  | goto target =>
    obtain ⟨t', ht', htargets⟩ := h.place.checked.shape k b h.block
    cases ht.symm.trans ht'
    have hlt : target < f.func.blocks.length := htargets target he
    have hend : b.instrs.length = done.length := by rw [h.code, hcode, List.append_nil]
    have hready : Ready m f.func f.regs k b.instrs.length := hend ▸ h.place.ready
    have htarget : target ∈ b.successors := by
      rw [Block.successors, ht]
      exact he
    simp only [leave, List.getElem?_eq_getElem hlt]
    exact ⟨.pure ⟨⟨target, _, [], .enter h.place.checked h.place.args (List.getElem?_eq_getElem hlt)
      (hready.jump h.block htarget)⟩, hcallers⟩, .pure _⟩
  | ret v =>
    cases hcallers with
    | nil => exact ⟨.pure trivial, .pure _⟩
    | cons hcall hg hsafe hrest =>
      obtain ⟨done', hresumed⟩ := resume_safe hsafe hcall hg he
      refine ⟨.pure ⟨⟨_, _, done', hresumed⟩, ?_⟩, .pure _⟩
      rw [Frame.func_resume]
      exact hrest

/-- One turn: it leads to a moment in order, and the faults that can end it remain. -/
theorem turn_safe (hm : m.check = .ok ()) (h : Moment.Safe m f callers) (s : Machine) :
    Ensures (turn m f callers) s (fun t _ => t.Safe m) ∧
      Stops (turn m f callers) (MayStop m f.func) := by
  obtain ⟨⟨k, b, done, htop⟩, hcallers⟩ := h
  unfold turn
  split
  · next hcode =>
    obtain ⟨t, ht, -⟩ := htop.place.checked.shape k b htop.block
    have hcheck := htop.place.checked.ends k b t htop.block ht
    have hend : b.instrs.length = done.length := by rw [htop.code, hcode, List.append_nil]
    rw [hend] at hcheck
    rw [htop.last, ht]
    constructor
    · exact (exit_keeps hcheck s).bind fun e s' he => (leave_safe htop hcode hcallers ht he s').1
    · exact (htop.place.exit hcheck).seq (exit_keeps hcheck) fun e he =>
        (leave_safe htop hcode hcallers ht he s).2
  · next i code hcode =>
    have hcheck := htop.checkInstr hcode
    split
    · next g operands hcallee =>
      cases i with
      | call dest name ret params operands' =>
        obtain ⟨g', hg, heq⟩ := Option.map_eq_some_iff.mp hcallee
        cases heq
        have hops := Context.checkInstr_operands hcheck
        constructor
        · exact (length_mapM _ _ _).bind fun values s' hvalues =>
            (begin_safe hm hcode hg htop hcallers hvalues s').1
        · exact (Stops.mapM fun p hp => htop.place.eval (hops p.2 (List.mem_map_of_mem hp))).seq
            (length_mapM _ _) fun values hvalues => (begin_safe hm hcode hg htop hcallers hvalues s).2
      | _ => cases hcallee
    · next hcallee =>
      constructor
      · exact (step_assigned hcallee s).bind fun regs s' hregs =>
          .pure ⟨⟨k, b, _, htop.next hcode hregs⟩, hcallers⟩
      · exact (htop.place.step hcheck hcallee).bind fun regs => .pure _

end

theorem Module.Passes.safe (hm : m.check = .ok ())
    (hparams : ∀ f, m.function? entryPoint = some f → f.params = []) (h : m.Passes M) :
    Moment.Safe m M.top M.callers := by
  obtain ⟨hf, hb, hreaches⟩ := h
  have hc := m.checked hm (List.mem_of_find?_eq_some hf)
  induction hreaches with
  | refl =>
    refine ⟨⟨0, _, [], .enter hc ?_ hb .start⟩, .nil⟩
    rw [hparams _ hf]
    rfl
  | tail _ hnext ih =>
    cases hnext with
    | mk hturn => exact (turn_safe hm ih _).1 _ _ hturn

/-- Soundness of the check, for modules however they were made, with loops and with blocks that control
never reaches: their runs, of whatever length, never go to a missing block, fall off the end of one, miss
an argument, call an unknown function, or read a register that is not set, unless the register is the
result of a call of a foreign function. -/
theorem checked_runs_safe {m : Module} {f : Function} (hm : m.check = .ok ())
    (hf : m.function? entryPoint = some f) (hparams : f.params = []) :
    (∀ M, m.Passes M → ∀ e s, M.turn m = .error (.fault e) s → e.Remains m M.top.func) ∧
      ∀ budget e s, m.execute budget = .error (.fault e) s →
        ∃ M, m.Passes M ∧ M.turn m = .error (.fault e) s ∧ e.Remains m M.top.func := by
  have hremains : ∀ M, m.Passes M → ∀ e s, M.turn m = .error (.fault e) s →
      e.Remains m M.top.func := by
    intro M hM e s hturn
    have hentry : ∀ g, m.function? entryPoint = some g → g.params = [] := by
      intro g hg
      cases hf.symm.trans hg
      exact hparams
    exact (turn_safe hm (hM.safe hm hentry) M.machine).2 _ _ s hturn
  have hlt : 0 < f.blocks.length :=
    List.length_pos_iff.mpr (m.checked hm (List.mem_of_find?_eq_some hf)).nonempty
  refine ⟨hremains, fun budget e s h => ?_⟩
  obtain ⟨M, hM, hturn⟩ :=
    (Module.Passes.of_execute hf (List.getElem?_eq_getElem hlt) budget).2 e s h
  exact ⟨M, hM, hturn, hremains M hM e s hturn⟩

/-- A function with a loop and a block that control never reaches; a foreign function leaves the result
out. -/
def Function.looping : Function where
  name := entryPoint
  params := []
  ret := .i32
  blocks := [
    ⟨0, "entry", [.alloca 0 .i32], some (.jump 1)⟩,
    ⟨1, "loop",
      [.load 1 .i32 (.register 0), .arith 2 .add .i32 (.register 1) (.int 1 .i32),
        .store .i32 (.register 2) (.register 0), .compare 3 .slt .i32 (.register 2) (.int 3 .i32)],
      some (.branch (.register 3) 1 2)⟩,
    ⟨2, "done", [.call (some 4) "puts" .i32 [.ptr] [(.ptr, .global "text")]],
      some (.ret (some (.i32, .register 4)))⟩,
    ⟨3, "never", [], some (.jump 3)⟩]

def Module.looping : Module where
  name := "looping"
  structs := []
  strings := [⟨"text", "done"⟩]
  foreigns := [⟨"puts", [.ptr], .void⟩]
  functions := [.looping]

theorem checked_runs_safe_looping : Module.looping.check = .ok () ∧
    (∃ s, Module.looping.execute 5 = .error (.fault (.unset 4)) s) ∧
    ∃ M, Module.looping.Passes M ∧ M.top.func.HasForeignResult Module.looping 4 := by
  have hcheck : Module.looping.check = .ok () := by rfl
  obtain ⟨s, hs⟩ : ∃ s, Module.looping.execute 5 = .error (.fault (.unset 4)) s := ⟨_, rfl⟩
  obtain ⟨M, hM, -, hremains⟩ := (checked_runs_safe hcheck rfl rfl).2 5 _ s hs
  exact ⟨hcheck, ⟨s, hs⟩, M, hM, hremains⟩

end StructLang.Ssa
