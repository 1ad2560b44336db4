import StructLang.Proofs.Ssa.Registers

/-!
# What calls do to the memory of SSA code

A function stores only into slots that it made itself. So a call that returns leaves every cell that was
there before as it was, whatever its arguments are.
-/

namespace StructLang.Ssa

open Execution (Ensures)

/-- The cells below a bound are as they were. -/
structure Machine.Spares (bound : Nat) (s s' : Machine) : Prop where
  size : s.memory.size ≤ s'.memory.size
  cells : ∀ i < bound, s'.memory[i]? = s.memory[i]?

namespace Machine.Spares

variable {s : Machine}

theorem refl : s.Spares bound s := ⟨Nat.le_refl _, fun _ _ => rfl⟩

theorem trans (h : s.Spares bound s') (h' : s'.Spares bound s'') : s.Spares bound s'' :=
  ⟨Nat.le_trans h.size h'.size, fun i hi => (h'.cells i hi).trans (h.cells i hi)⟩

theorem put (hi : bound ≤ i) (v : Value) : s.Spares bound (s.put i v) :=
  ⟨(s.keeps_put i v).size, fun _ hj => Array.getElem?_setIfInBounds_ne (by omega)⟩

theorem push (hb : bound ≤ s.memory.size) (v : Value) :
    s.Spares bound { s with memory := s.memory.push v } := by
  refine ⟨by simp, fun i hi => ?_⟩
  rw [Array.getElem?_push, if_neg (by omega)]

end Machine.Spares

theorem orFault_ensures (r : Except Fault α) :
    Ensures (orFault r) s fun a s' => s' = s ∧ r = .ok a := by
  cases r with
  | ok a => exact .pure ⟨rfl, rfl⟩
  | error f => exact .throw _

theorem zero_ensures (ty : Ty) : Ensures (zero m ty) s fun v s' =>
    s' = s ∧ zeroValue m m.structs.length ty = .ok v := by
  unfold zero
  split
  · next h => exact .pure ⟨rfl, h⟩
  · exact .throw _

theorem eval_ensures (o : Operand) : Ensures (eval m args regs o) s fun v s' =>
    s' = s ∧ ∀ r, o = .register r → regs.lookup r = some v := by
  cases o with
  | register r =>
    rw [eval]
    split
    · next h => exact .pure ⟨rfl, fun _ heq => by cases heq; exact h⟩
    · exact .throw _
  | zero ty => exact (zero_ensures ty).mono fun _ _ h => ⟨h.1, fun _ heq => by cases heq⟩
  | param i =>
    rw [eval]
    split
    · exact .pure ⟨rfl, fun _ heq => by cases heq⟩
    · exact .throw _
  | int | float | global => exact .pure ⟨rfl, fun _ heq => by cases heq⟩

theorem evalAll_ensures (os : List (Ty × Operand)) :
    Ensures (os.mapM fun p => eval m args regs p.2) s fun _ s' => s' = s := by
  induction os with
  | nil => exact .pure rfl
  | cons o rest ih =>
    rw [List.mapM_cons]
    refine (eval_ensures o.2).bind fun v s' h => ?_
    rw [h.1]
    exact ih.bind fun _ _ h' => .pure h'

theorem evalAddress_ensures (o : Operand) : Ensures (evalAddress m args regs o) s fun a s' =>
    s' = s ∧ ∀ r, o = .register r → regs.lookup r = some (.ptr a) := by
  refine (eval_ensures o).bind fun v s' h => ?_
  split
  · exact .pure h
  · exact .throw _

theorem get_ensures : Ensures (get : Exec Machine) s fun b s' => b = s ∧ s' = s := .pure ⟨rfl, rfl⟩

theorem read_ensures (a : Address) : Ensures (read a) s fun v s' =>
    s' = s ∧ ∃ i w, a.base = .slot i ∧ s.memory[i]? = some w ∧ w.get a.path = .ok v := by
  unfold read
  split
  · exact .throw _
  · next i hi =>
    refine get_ensures.bind fun b s' h => ?_
    obtain ⟨rfl, rfl⟩ := h
    split
    · exact .throw _
    · next w hw => exact (orFault_ensures _).mono fun _ _ h => ⟨h.1, i, w, hi, hw, h.2⟩

theorem write_ensures (a : Address) (v : Value) : Ensures (write a v) s fun _ s' =>
    ∃ i x w, a.base = .slot i ∧ s.memory[i]? = some x ∧ Value.set v a.path x = .ok w ∧
      s' = s.put i w := by
  unfold write
  split
  · exact .throw _
  · next i hi =>
    refine get_ensures.bind fun b s' h => ?_
    obtain ⟨rfl, rfl⟩ := h
    split
    · exact .throw _
    · next x hx =>
      refine (orFault_ensures _).bind fun w s' h => ?_
      rw [h.1]
      exact .pure ⟨i, x, w, hi, hx, h.2, rfl⟩

theorem allocate_ensures (v : Value) : Ensures (allocate v) s fun a s' =>
    a = ⟨.slot s.memory.size, []⟩ ∧ s' = { s with memory := s.memory.push v } :=
  .pure ⟨rfl, rfl⟩

/-! ## Steps -/

/-- Addresses that may be stored to lead to cells from a bound on. -/
def Own (bound : Nat) : Kind → Value → Prop
  | .place true _, v | .holder _, v => ∀ a, v = .ptr a → ∃ i, bound ≤ i ∧ a.base = .slot i
  | .place false _, _ | .value _, _ => True

section

variable {call : Call}

theorem eval_own (h : regs.Keep (Own bound) c before) (hk : OperandKind c before o k) :
    Ensures (eval m args regs o) s fun v s' => s' = s ∧ Own bound k v := by
  refine (eval_ensures o).mono fun v s' hv => ⟨hv.1, ?_⟩
  cases o with
  | register r => exact h r k v hk (hv.2 r rfl)
  | int | float | zero | param | global =>
    cases hk <;> exact True.intro

def Call.Spares (call : Call) (bound : Nat) : Prop :=
  ∀ name values s, bound ≤ s.memory.size →
    Ensures (call name values) s fun _ s' => s.Spares bound s'

theorem evalAddress_own (h : regs.Keep (Own bound) c before) (hk : OperandKind c before o k) :
    Ensures (evalAddress m args regs o) s fun a s' => s' = s ∧ Own bound k (.ptr a) := by
  refine (eval_own h hk).bind fun v s' hv => ?_
  split
  · exact .pure hv
  · exact .throw _

/-- An instruction stores only into cells from the bound on. -/
theorem InstrKinded.spares (hi : InstrKinded c before i) (h : regs.Keep (Own bound) c before)
    (hc : c.receiver.isSome = true → .alloca 0 .ptr ∈ c.slots)
    (hfresh : ∀ r, i.dest? = some r → r ∉ dests c.slots ++ dests before)
    (hcall : call.Spares bound) (hb : bound ≤ s.memory.size) :
    Ensures (step m call args regs i) s fun regs' s' =>
      s.Spares bound s' ∧ regs'.Keep (Own bound) c (before ++ [i]) := by
  have hvalue : ∀ {r v}, i.dest? = some r → i.IsComputation →
      (regs.assign r v).Keep (Own bound) c (before ++ [i]) := by
    intro r v hr hcomp
    refine h.assign hr hc (hfresh r hr) fun k hk => ?_
    cases hk with
    | computed => exact True.intro
    | receiver | load | field => cases hcomp
  cases hi with
  | @load dest ty a own ha | @receiver dest a ty ha =>
    refine (evalAddress_ensures a).bind fun b s' hb' => ?_
    rw [hb'.1]
    refine (read_ensures b).bind fun v s' hs => ?_
    rw [hs.1]
    refine .pure ⟨.refl, h.assign rfl hc (hfresh dest rfl) fun k hk => ?_⟩
    cases hk <;> exact True.intro
  | @store ty v a hv ha | @hold v a ty own hv ha =>
    refine (eval_ensures v).bind fun w s' hw => ?_
    rw [hw.1]
    refine (evalAddress_own h ha).bind fun b s' hb' => ?_
    obtain ⟨rfl, hown⟩ := hb'
    refine (write_ensures b w).bind fun _ s' hs => .pure ?_
    obtain ⟨i, -, x, hbase, -, -, rfl⟩ := hs
    obtain ⟨j, hj, hbase'⟩ := hown b rfl
    cases hbase.symm.trans hbase'
    exact ⟨.put hj x, h.pass rfl⟩
  | @arith dest op ty l r hl hr | @compare dest op ty l r hl hr =>
    refine (eval_ensures l).bind fun _ s' h1 => ?_
    rw [h1.1]
    refine (eval_ensures r).bind fun _ s' h2 => ?_
    rw [h2.1]
    refine (orFault_ensures _).bind fun _ s' h3 => .pure ?_
    rw [h3.1]
    exact ⟨.refl, hvalue rfl True.intro⟩
  | @cast dest op v source target hv hop =>
    refine (eval_ensures v).bind fun _ s' h1 => ?_
    rw [h1.1]
    refine (orFault_ensures _).bind fun _ s' h2 => .pure ?_
    rw [h2.1]
    exact ⟨.refl, hvalue rfl True.intro⟩
  | @field dest struct base index own d ty hbase hd hindex =>
    refine (evalAddress_ensures base).bind fun b s' hb' => .pure ?_
    rw [hb'.1]
    refine ⟨.refl, h.assign rfl hc (hfresh dest rfl) fun k hk => ?_⟩
    cases hk with
    | computed hcomp => cases hcomp
    | @field _ _ _ _ _ own' _ _ hplace =>
      -- the address of a field leads into the cell of its struct
      cases own' with
      | false => exact True.intro
      | true =>
        have hreg : ∃ r, base = .register r := by
          cases hplace <;> exact ⟨_, rfl⟩
        obtain ⟨r, rfl⟩ := hreg
        rintro _ ⟨⟩
        exact h r _ _ hplace (hb'.2 r rfl) b rfl
  | @call dest ret params operands name ts callee hr hret hdest hargs =>
    refine (evalAll_ensures operands).bind fun values s' hs => ?_
    rw [hs]
    refine (hcall callee.linkage values s hb).bind fun result s' hs' => .pure ⟨hs', ?_⟩
    split
    · next r v => exact hvalue rfl True.intro
    · -- a register that was to be assigned holds a value, if it holds anything
      intro r k v hk hv
      rcases hk.snoc with hk | ⟨-, hk⟩
      · exact h r k v hk hv
      · cases hk
        exact True.intro

theorem steps_spares (hcode : Coded (InstrKinded c) before code)
    (h : regs.Keep (Own bound) c before)
    (hc : c.receiver.isSome = true → .alloca 0 .ptr ∈ c.slots)
    (hnodup : (dests c.slots ++ dests (before ++ code)).Nodup) (hcall : call.Spares bound)
    (hb : bound ≤ s.memory.size) : Ensures (steps m call args regs code) s fun regs' s' =>
      s.Spares bound s' ∧ regs'.Keep (Own bound) c (before ++ code) := by
  induction code generalizing before regs s with
  | nil => exact .pure ⟨.refl, by simpa using h⟩
  | cons i rest ih =>
    refine (hcode.1.spares h hc (fresh_of_nodup hnodup) hcall hb).bind fun regs' s' hs => ?_
    rw [List.append_cons] at hnodup ⊢
    refine (ih hcode.2 hs.2 hnodup (Nat.le_trans hb hs.1.size)).mono fun regs'' s'' hs' => ?_
    exact ⟨hs.1.trans hs'.1, hs'.2⟩

theorem makeSlots_spares (hslots : ∀ i ∈ slots, i.IsAlloca) (h : regs.Keep (Own bound) c [])
    (hb : bound ≤ s.memory.size) : Ensures (steps m call args regs slots) s fun regs' s' =>
      s.Spares bound s' ∧ regs'.Keep (Own bound) c [] := by
  induction slots generalizing regs s with
  | nil => exact .pure ⟨.refl, h⟩
  | cons i rest ih =>
    obtain ⟨⟨r, ty, rfl⟩, hrest⟩ := List.forall_mem_cons.mp hslots
    refine Ensures.bind (Q := fun regs' s' => s.Spares bound s' ∧ regs'.Keep (Own bound) c []) ?_
      fun regs' s' hs => ?_
    · refine (zero_ensures ty).bind fun v s' hv => ?_
      rw [hv.1]
      refine (allocate_ensures v).bind fun a s' ha => .pure ?_
      obtain ⟨rfl, rfl⟩ := ha
      refine ⟨.push hb v, h.make fun k hk => ?_⟩
      have hown : ∀ a, Value.ptr ⟨.slot s.memory.size, []⟩ = .ptr a →
          ∃ i, bound ≤ i ∧ a.base = .slot i := by
        rintro _ ⟨⟩
        exact ⟨_, hb, rfl⟩
      match k with
      | .place true _ | .holder _ => exact hown
      | .place false _ | .value _ => exact True.intro
    · exact (ih hrest hs.2 (Nat.le_trans hb hs.1.size)).mono fun regs'' s'' hs' =>
        ⟨hs.1.trans hs'.1, hs'.2⟩

/-- A function that keeps to the kinds spares what was there. -/
theorem Function.Kinded.spares (hF : F.Kinded c) (hcall : call.Spares bound)
    (budget block : Nat) (h : regs.Keep (Own bound) c []) (hb : bound ≤ s.memory.size) :
    Ensures (runBlocks m call F args budget regs block) s fun _ s' => s.Spares bound s' := by
  induction budget generalizing regs block s with
  | zero => exact .throw _
  | succ budget ih =>
    rw [runBlocks]
    split
    · exact .throw _
    · next b hblock =>
      obtain ⟨code, hinstrs, hcode, hnodup, -⟩ := hF.blocks block b hblock
      have hfront : ∀ i ∈ front c.slots block, i.IsAlloca := by
        intro i hi
        unfold front at hi
        split at hi
        · obtain ⟨⟨r, ty, rfl, -⟩, -⟩ := hF.slots i hi
          exact ⟨r, ty, rfl⟩
        · cases hi
      have hrun : Ensures (steps m call args regs b.instrs) s fun regs' s' =>
          s.Spares bound s' ∧ regs'.Keep (Own bound) c code := by
        rw [hinstrs, steps_append]
        refine (makeSlots_spares hfront h hb).bind fun regs' s' hs => ?_
        refine (steps_spares hcode hs.2 hF.holder hnodup hcall (Nat.le_trans hb hs.1.size)).mono
          fun regs'' s'' hs' => ?_
        exact ⟨hs.1.trans hs'.1, hs'.2⟩
      refine hrun.bind fun regs' s' hs => ?_
      have hexit : Ensures (exit m F args regs' b.terminator) s' fun _ s'' => s'' = s' := by
        unfold exit
        split
        · exact .throw _
        · exact .pure rfl
        · exact (eval_ensures _).bind fun _ _ hv => .pure hv.1
        · exact .pure rfl
        · refine (eval_ensures _).bind fun v _ hv => ?_
          split
          · exact .pure hv.1
          · exact .throw _
        · exact .throw _
      refine hexit.bind fun e s'' he => ?_
      rw [he]
      split
      · exact .pure hs.1
      · exact (ih _ hs.2.restart (Nat.le_trans hb hs.1.size)).mono fun _ _ hs' => hs.1.trans hs'

end

/-! ## Calls -/

theorem callForeign_spares
    (bound : Nat) : Ensures (callForeign m name args) s fun _ s' => s.Spares bound s' := by
  unfold callForeign
  split
  · exact .throw _
  · refine (orFault_ensures _).bind fun text s' h => ?_
    rw [h.1]
    have hprint : Ensures (print text) s fun _ s' => s'.memory = s.memory := .pure rfl
    refine hprint.bind fun _ s' hs => .pure ?_
    exact ⟨Nat.le_of_eq (congrArg Array.size hs.symm), fun i _ => by rw [hs]⟩

theorem callAt_spares (hl : m.Lowers p) (hw : p.WellTyped) (budget depth bound : Nat) :
    Call.Spares (callAt m budget depth) bound := by
  induction depth with
  | zero =>
    intro name args s hb
    rw [callAt]
    split
    · exact callForeign_spares bound
    · exact .throw _
  | succ depth ih =>
    intro name args s hb
    rw [callAt]
    split
    · exact callForeign_spares bound
    · next F hF =>
      obtain ⟨-, -, c, hkinded, -⟩ := hl.kinded hw (List.mem_of_find?_eq_some hF)
      exact hkinded.spares ih budget 0 .nil hb

end StructLang.Ssa
