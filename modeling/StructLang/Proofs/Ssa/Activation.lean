import StructLang.Proofs.Ssa.Growth
import StructLang.Proofs.Ssa.Values

/-!
# Activations of SSA functions

What holds while the code of a function runs: its slots have their memory cells, registers keep their
values, and memory below a bound stays as it is.
-/

namespace StructLang.Ssa

/-! ## Registers -/

theorem Registers.lookup_assign (regs : Registers) (r r' : Register) (v : Value) :
    (regs.assign r v).lookup r' = if r' = r then some v else regs.lookup r' := by
  induction regs with
  | nil =>
    by_cases h : r' = r
    · simp [Registers.assign, h]
    · simp [Registers.assign, List.lookup_cons, h, beq_eq_false_iff_ne.mpr h]
  | cons entry rest ih =>
    obtain ⟨k, w⟩ := entry
    rw [Registers.assign]
    by_cases hk : k = r
    · subst hk
      by_cases h : r' = k
      · simp [h]
      · simp [List.lookup_cons, h, beq_eq_false_iff_ne.mpr h]
    · by_cases h : r' = k
      · subst h
        simp [hk]
      · simp [List.lookup_cons, hk, beq_eq_false_iff_ne.mpr h, ih]

def Registers.Le (regs regs' : Registers) : Prop :=
  ∀ r v, regs.lookup r = some v → regs'.lookup r = some v

theorem Registers.Le.refl (regs : Registers) : regs.Le regs := fun _ _ h => h

theorem Registers.Le.trans {regs : Registers} (h : regs.Le regs') (h' : regs'.Le regs'') :
    regs.Le regs'' :=
  fun r v hv => h' r v (h r v hv)

theorem Registers.Le.assign {regs : Registers} (h : regs.lookup r = none) (v : Value) :
    regs.Le (regs.assign r v) := by
  intro r' w hw
  rw [Registers.lookup_assign]
  split
  · next heq =>
    rw [heq, h] at hw
    cases hw
  · exact hw

theorem eval_mono (h : eval m args regs o = pure w) (hle : regs.Le regs') :
    eval m args regs' o = pure w := by
  cases o with
  | register r =>
    simp only [eval] at h ⊢
    cases hr : regs.lookup r with
    | none =>
      rw [hr] at h
      cases congrFun h ⟨#[], ""⟩
    | some v =>
      rw [hr] at h
      rw [hle r v hr]
      exact h
  | _ => exact h

/-! ## Memory -/

/-- Memory outside of some cells stays as it is, and nothing is printed. -/
structure Machine.Keeps (lo hi : Nat) (s s' : Machine) : Prop where
  size : s.memory.size ≤ s'.memory.size
  cells : ∀ i < s.memory.size, i < lo ∨ hi ≤ i → s'.memory[i]? = s.memory[i]?
  output : s'.output = s.output

namespace Machine.Keeps

variable {s : Machine}

theorem refl : s.Keeps lo hi s := ⟨Nat.le_refl _, fun _ _ _ => rfl, rfl⟩

theorem trans (h : s.Keeps lo hi s') (h' : s'.Keeps lo' hi' s'') (hlo : lo ≤ lo') (hhi : hi ≤ hi') :
    s.Keeps lo hi' s'' := by
  refine ⟨Nat.le_trans h.size h'.size, fun i hi1 hi2 => ?_, h'.output.trans h.output⟩
  have hsize := h.size
  rw [h'.cells i (by omega) (by omega), h.cells i hi1 (by omega)]

theorem all_trans (h : s.Keeps 0 0 s') (h' : s'.Keeps lo hi s'') (hlo : s.memory.size ≤ lo) :
    s.Keeps 0 0 s'' := by
  refine ⟨Nat.le_trans h.size h'.size, fun i hi1 hi2 => ?_, h'.output.trans h.output⟩
  have hsize := h.size
  rw [h'.cells i (by omega) (by omega), h.cells i hi1 hi2]

theorem of_all (h : s.Keeps 0 0 s') : s.Keeps lo hi s' :=
  ⟨h.size, fun i hi _ => h.cells i hi (.inr (Nat.zero_le i)), h.output⟩

end Machine.Keeps

def Machine.put (s : Machine) (i : Nat) (v : Value) : Machine :=
  { s with memory := s.memory.setIfInBounds i v }

theorem Machine.keeps_put (s : Machine) (i : Nat) (v : Value) : s.Keeps i (i + 1) (s.put i v) := by
  refine ⟨by simp [put], fun j _ hj => ?_, rfl⟩
  exact Array.getElem?_setIfInBounds_ne (by omega)

theorem Machine.getElem?_put {s : Machine} (h : i < s.memory.size) (v : Value) :
    (s.put i v).memory[i]? = some v := by
  simp [put, h]

theorem Value.get_append (v : Value) (path path' : List Nat) :
    v.get (path ++ path') = v.get path >>= Value.get path' := by
  induction path generalizing v with
  | nil => rfl
  | cons i path ih =>
    cases v with
    | aggregate fields =>
      simp only [List.cons_append, Value.get]
      cases fields[i]? with
      | none => rfl
      | some w => exact ih w
    | _ => rfl

theorem StandAll.length_eq (h : StandAll s ts vs ws) : ts.length = ws.length := by
  induction ts generalizing vs ws with
  | nil =>
    cases h
    rfl
  | cons ty ts ih =>
    cases h with
    | cons _ hs => simp [ih hs]

theorem StandAll.getElem? (h : StandAll s ts vs ws) {i : Nat} (hi : ts[i]? = some ty) :
    ∃ v w, vs[i]? = some v ∧ ws[i]? = some w ∧ Stands s ty v w := by
  induction i generalizing ts vs ws with
  | zero =>
    cases h with
    | nil => cases hi
    | cons h _ =>
      cases hi
      exact ⟨_, _, rfl, rfl, h⟩
  | succ i ih =>
    cases h with
    | nil => cases hi
    | cons _ hs => exact ih hs hi

theorem read_of_slot (hbase : a.base = .slot i)
    (hx : s.memory[i]? = some x) (hget : x.get a.path = .ok w) : read a s = .ok w s := by
  simp only [read, hbase, bind, EStateM.bind, Execution.get_eq, hx, hget]
  rfl

def Holds (symbols : Symbols) (s : Machine) (bound : Nat) (a : Address) (ty : StructLang.Ty)
    (v : Meaning.Value) : Prop :=
  ∃ i x w, a.base = .slot i ∧ i < bound ∧ s.memory[i]? = some x ∧ x.get a.path = .ok w ∧
    Stands symbols ty v w

namespace Holds

theorem keeps (h : Holds symbols s bound a ty v) (hk : s.Keeps bound hi s') :
    Holds symbols s' bound a ty v := by
  obtain ⟨i, x, w, hbase, hi, hx, hget, hstands⟩ := h
  have hsize := (Array.getElem?_eq_some_iff.mp hx).1
  exact ⟨i, x, w, hbase, hi, (hk.cells i hsize (.inl hi)).trans hx, hget, hstands⟩

theorem mono (h : Holds symbols s bound a ty v) (hle : bound ≤ bound') :
    Holds symbols s bound' a ty v := by
  obtain ⟨i, x, w, hbase, hi, h⟩ := h
  exact ⟨i, x, w, hbase, Nat.lt_of_lt_of_le hi hle, h⟩

theorem inside (h : Holds symbols s bound a ty v) : Holds symbols s s.memory.size a ty v := by
  obtain ⟨i, x, w, hbase, -, hx, h⟩ := h
  exact ⟨i, x, w, hbase, (Array.getElem?_eq_some_iff.mp hx).1, hx, h⟩

theorem read (h : Holds symbols s bound a ty v) :
    ∃ w, Ssa.read a s = .ok w s ∧ Stands symbols ty v w := by
  obtain ⟨i, x, w, hbase, hi, hx, hget, hstands⟩ := h
  exact ⟨w, read_of_slot hbase hx hget, hstands⟩

theorem field (h : Holds symbols s bound a (.struct struct) v)
    (hf : symbols.field? (.struct struct) member = some (index, fieldTy)) :
    Holds symbols s bound ⟨a.base, a.path ++ [index]⟩ fieldTy (v.field index) := by
  obtain ⟨d, g, hd, -, hg, rfl⟩ := Symbols.field?_eq_some hf
  obtain ⟨i, x, w, hbase, hi, hx, hget, hstands⟩ := h
  cases hstands with
  | @struct _ d' vs ws hd' hall =>
    cases hd.symm.trans hd'
    obtain ⟨v', w', hv', hw', hfield⟩ := hall.getElem? (i := index) (by rw [List.getElem?_map, hg]; rfl)
    refine ⟨i, x, w', hbase, hi, hx, ?_, ?_⟩
    · rw [Value.get_append, hget]
      simp [bind, Except.bind, Value.get, hw']
    · simpa [Meaning.Value.field, hv'] using hfield

end Holds

/-! ## Running code -/

/-- What the code of a function depends on while it runs. -/
structure Activation where
  module : Module
  call : Call
  args : List Value
  findings : Findings
  /-- The supply in which lowering the function ended. -/
  final : Supply
  /-- The machine when the function was called. -/
  entry : Machine
  /-- How many of the slots hold variables. -/
  housed : Nat

namespace Activation

variable (c : Activation)

def symbols : Symbols := c.findings.symbols

def base : Nat := c.entry.memory.size

def eval (regs : Registers) (o : Operand) : Exec Value := Ssa.eval c.module c.args regs o

def steps (regs : Registers) (code : List Instr) : Exec Registers :=
  Ssa.steps c.module c.call c.args regs code

/-- What holds between two instructions: every slot has its memory cell, which is zero until the slot is
given out, and the registers that are still to be given out are unset. -/
structure Running (s : Supply) (regs : Registers) (mach : Machine) : Prop where
  low : ∀ r ∈ dests s.slots, r < s.nextRegister
  placed : ∀ k r ty, c.final.slots[k]? = some (.alloca r ty) →
    regs.lookup r = some (.ptr ⟨.slot (c.base + k), []⟩)
  fresh : ∀ r, s.nextRegister ≤ r → r ∉ dests c.final.slots → regs.lookup r = none
  room : c.base + c.final.slots.length ≤ mach.memory.size
  untouched : ∀ k r ty, s.slots.length ≤ k → c.final.slots[k]? = some (.alloca r ty) →
    ∃ w, zero c.module ty = pure w ∧ mach.memory[c.base + k]? = some w

/-- Code ran: from a state between two instructions to another one, with the slots that had been given
out, up to a number of them, as they were. -/
structure Ran (kept : Nat) (regs : Registers) (mach : Machine) (s' : Supply) (regs' : Registers)
    (mach' : Machine) : Prop where
  running : c.Running s' regs' mach'
  given : kept ≤ s'.slots.length
  registers : regs.Le regs'
  memory : mach.Keeps (c.base + kept) (c.base + s'.slots.length) mach'

def Denotes (regs : Registers) (o : Operand) (ty : StructLang.Ty) (v : Meaning.Value) : Prop :=
  ∃ w, c.eval regs o = pure w ∧ Stands c.symbols ty v w

/-- An operand is an address in one of the first slots that leads to a value of a type. -/
def Points (regs : Registers) (mach : Machine) (kept : Nat) (o : Operand) (ty : StructLang.Ty)
    (v : Meaning.Value) : Prop :=
  ∃ a, c.eval regs o = pure (.ptr a) ∧ Holds c.symbols mach (c.base + kept) a ty v

def Means (regs : Registers) (mach : Machine) (kept : Nat) (ty : StructLang.Ty) (v : Meaning.Value) :
    Lowered → Prop
  | .value ty' o => ty' = ty ∧ c.Denotes regs o ty v
  | .place ty' o => ty' = ty ∧ c.Points regs mach kept o ty v

end Activation

theorem steps_append (regs : Registers)
    (code code' : List Instr) : steps m call args regs (code ++ code') =
      steps m call args regs code >>= fun regs => steps m call args regs code' := by
  induction code generalizing regs with
  | nil => rfl
  | cons i rest ih => simp only [List.cons_append, steps, ih, bind_assoc]

theorem Supply.Le.length {s : Supply} (h : s.Le s') : s.slots.length ≤ s'.slots.length := by
  obtain ⟨new, hnew, -⟩ := h.slots
  simp [hnew]

namespace Activation

variable {c : Activation} {s : Supply}

theorem steps_append (regs : Registers) (code code' : List Instr) :
    c.steps regs (code ++ code') = c.steps regs code >>= fun regs => c.steps regs code' :=
  Ssa.steps_append regs code code'

/-! ### States -/

theorem Running.keeps (h : c.Running s regs mach) (hk : mach.Keeps lo hi mach')
    (hhi : hi ≤ c.base + s.slots.length) : c.Running s regs mach' := by
  refine ⟨h.low, h.placed, h.fresh, Nat.le_trans h.room hk.size, fun k r ty hk1 hk2 => ?_⟩
  obtain ⟨w, hw, hcell⟩ := h.untouched k r ty hk1 hk2
  have hsize := (Array.getElem?_eq_some_iff.mp hcell).1
  exact ⟨w, hw, (hk.cells _ hsize (.inr (by omega))).trans hcell⟩

theorem Running.skip (h : c.Running s regs mach) (hle : s.Le s') : c.Running s' regs mach := by
  obtain ⟨new, hnew, hr, -⟩ := hle.slots
  refine ⟨fun r hm => ?_, h.placed, fun r hlow => h.fresh r (Nat.le_trans hle.registers hlow), h.room,
    fun k r ty hk => h.untouched k r ty (Nat.le_trans hle.length hk)⟩
  rw [hnew, dests_append, List.mem_append] at hm
  rcases hm with hm | hm
  · exact Nat.lt_of_lt_of_le (h.low r hm) hle.registers
  · exact (hr.2 r hm).2

theorem Running.unset (h : c.Running s regs mach) (hle : s.bump.Le c.final) :
    s.nextRegister ∉ dests c.final.slots ∧ regs.lookup s.nextRegister = none := by
  have hclear : s.nextRegister ∉ dests c.final.slots := by
    obtain ⟨new, hnew, hr, -⟩ := hle.slots
    rw [hnew, dests_append, List.mem_append]
    rintro (hm | hm)
    · exact Nat.lt_irrefl _ (h.low _ hm)
    · exact Nat.lt_irrefl _ (hr.2 _ hm).1
  exact ⟨hclear, h.fresh _ (Nat.le_refl _) hclear⟩

theorem Running.assign (h : c.Running s regs mach) (hle : s.bump.Le c.final) (w : Value) :
    c.Ran s.slots.length regs mach s.bump (regs.assign s.nextRegister w) mach ∧
      c.eval (regs.assign s.nextRegister w) (.register s.nextRegister) = pure w := by
  obtain ⟨hclear, hunset⟩ := h.unset hle
  refine ⟨⟨⟨?_, ?_, ?_, h.room, h.untouched⟩, Nat.le_refl _, .assign hunset w, .refl⟩, ?_⟩
  · exact fun r hr => Nat.lt_succ_of_lt (h.low r hr)
  · intro k r ty hk
    exact Registers.Le.assign hunset w _ _ (h.placed k r ty hk)
  · intro r hr hslots
    rw [Registers.lookup_assign, if_neg (Nat.ne_of_gt hr)]
    exact h.fresh r (Nat.le_of_succ_le hr) hslots
  · simp [eval, Ssa.eval, Registers.lookup_assign]

theorem Running.allocate (h : c.Running s regs mach) (t : Ty) : c.Running (s.allocate t) regs mach := by
  refine ⟨fun r hr => ?_, h.placed, fun r hr => h.fresh r (Nat.le_of_succ_le hr), h.room, ?_⟩
  · simp only [Supply.allocate, dests_append, List.mem_append] at hr
    rcases hr with hr | hr
    · exact Nat.lt_succ_of_lt (h.low r hr)
    · rw [show r = s.nextRegister by simpa [dests, Instr.dest?] using hr]
      exact Nat.lt_succ_self _
  · intro k r ty hk
    refine h.untouched k r ty (Nat.le_trans ?_ hk)
    simp [Supply.allocate]

theorem slots_allocate (hle : (s.allocate t).Le c.final) :
    c.final.slots[s.slots.length]? = some (.alloca s.nextRegister t) := by
  obtain ⟨new, hnew, -⟩ := hle.slots
  rw [hnew]
  simp [Supply.allocate]

theorem Running.slot (h : c.Running s regs mach) (hle : (s.allocate t).Le c.final) :
    c.eval regs (.register s.nextRegister) =
        pure (.ptr ⟨.slot (c.base + s.slots.length), []⟩) ∧
      ∃ w, zero c.module t = pure w ∧ mach.memory[c.base + s.slots.length]? = some w := by
  have hk := slots_allocate hle
  exact ⟨by simp [eval, Ssa.eval, h.placed _ _ _ hk], h.untouched _ _ _ (Nat.le_refl _) hk⟩

theorem Ran.refl (h : c.Running s regs mach) : c.Ran s.slots.length regs mach s regs mach :=
  ⟨h, Nat.le_refl _, .refl _, .refl⟩

theorem Ran.append (h : c.Ran kept regs mach s regs' mach')
    (h' : c.Ran kept' regs' mach' s' regs'' mach'') (hkept : kept ≤ kept')
    (hslots : s.slots.length ≤ s'.slots.length) : c.Ran kept regs mach s' regs'' mach'' :=
  ⟨h'.running, Nat.le_trans hkept h'.given, h.registers.trans h'.registers,
    h.memory.trans h'.memory (by omega) (by omega)⟩

theorem Ran.trans (h : c.Ran kept regs mach s regs' mach')
    (h' : c.Ran s.slots.length regs' mach' s' regs'' mach'') :
    c.Ran kept regs mach s' regs'' mach'' :=
  h.append h' h.given h'.given

theorem Ran.keep (hk : kept' ≤ kept) (h : c.Ran kept regs mach s regs' mach') :
    c.Ran kept' regs mach s regs' mach' := by
  have hgiven := h.given
  refine ⟨h.running, by omega, h.registers, h.memory.size, fun i hi hout => ?_, h.memory.output⟩
  exact h.memory.cells i hi (by omega)

/-! ### Operands -/

theorem Denotes.mono (h : c.Denotes regs o ty v) (hr : regs.Le regs') : c.Denotes regs' o ty v := by
  obtain ⟨w, hw, hstands⟩ := h
  exact ⟨w, eval_mono hw hr, hstands⟩

theorem Points.mono (h : c.Points regs mach kept o ty v) (hr : c.Ran kept regs mach s regs' mach')
    (hle : kept ≤ kept') : c.Points regs' mach' kept' o ty v := by
  obtain ⟨a, ha, hholds⟩ := h
  exact ⟨a, eval_mono ha hr.registers, (hholds.keeps hr.memory).mono (by omega)⟩

theorem evalAddress_eq (h : c.eval regs o = pure (.ptr a)) :
    evalAddress c.module c.args regs o = pure a := by
  simp only [eval] at h
  rw [evalAddress, h, pure_bind]

theorem steps_load (ha : c.eval regs o = pure (.ptr a)) (hread : read a mach = .ok w mach) :
    c.steps regs [.load r t o] mach = .ok (regs.assign r w) mach := by
  simp only [steps, Ssa.steps, step, evalAddress_eq ha, pure_bind, bind_pure]
  rw [Execution.bind_of_ok hread]
  rfl

theorem steps_store (hv : c.eval regs o = pure w)
    (ha : c.eval regs a = pure (.ptr ⟨.slot i, path⟩)) (hi : mach.memory[i]? = some x)
    (hset : Value.set w path x = .ok w') :
    c.steps regs [.store t o a] mach = .ok regs (mach.put i w') := by
  have hwrite : write ⟨.slot i, path⟩ w mach = .ok () (mach.put i w') := by
    simp only [write, bind, EStateM.bind, Execution.get_eq, hi, hset,
      orFault]
    rfl
  simp only [eval] at hv
  simp only [steps, Ssa.steps, step, hv, evalAddress_eq ha, pure_bind, bind_pure]
  rw [Execution.bind_of_ok hwrite]
  rfl

end Activation

end StructLang.Ssa
