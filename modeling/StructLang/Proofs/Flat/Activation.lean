import Mathlib.Order.Monotone.Basic
import StructLang.Proofs.Flat.Contents
import StructLang.Proofs.Flat.ForwardFlow

/-!
# Activations of flat functions

What holds while the code of a function runs: its stack space is in place, temporaries keep their values,
and the stack below a bound stays as it is. Code without labels and jumps is run by itself.
-/

namespace StructLang.Flat

open scoped CoreNumbers

/-! ## Straight code -/

def straight (m : Module) (call : Call) : Temps → List Instr → Exec Temps :=
  List.foldlM (step m call)

theorem steps_append (h : Straight code) (temps : Temps) (rest : List Instr) :
    steps m call f temps (code ++ rest) =
      straight m call temps code >>= fun temps => steps m call f temps rest := by
  induction code generalizing temps with
  | nil => rfl
  | cons i code ih =>
    obtain ⟨hi, hcode⟩ := List.forall_mem_cons.mp h
    rw [List.cons_append, steps_cons hi.2, straight, List.foldlM_cons, bind_assoc]
    exact congrArg _ (funext fun temps => ih hcode temps)

/-! ## The stack never shrinks -/

section

variable {call : Call} {α : Type}

theorem retains_orFault (r : Except Fault α) : bridge.Retains (orFault r) := by
  cases r with
  | ok a => exact .pure a
  | error e => exact .throw _

theorem retains_get : bridge.Retains (get : Exec Machine) := fun _ h => h

theorem retains_changeMemory {change : Memory → Except Fault Memory}
    (h : ∀ memory memory', change memory = .ok memory' → memory.stack.size ≤ memory'.stack.size) :
    bridge.Retains (changeMemory change) := by
  intro s hs
  cases hc : change s.memory with
  | ok memory' =>
    have hlast : (changeMemory change).last s = ⟨memory', s.output⟩ := by
      rw [Execution.last, changeMemory, hc]
    rw [hlast] at hs
    exact Nat.lt_of_le_of_lt (h _ _ hc) hs
  | error e =>
    have hlast : (changeMemory change).last s = s := by
      rw [Execution.last, changeMemory, hc]
    rwa [hlast] at hs

theorem retains_allocate (size align : Nat) : bridge.Retains (allocate size align) := by
  intro s hs
  have hlow := s.memory.le_aligned align
  have hsize := s.memory.size_allocate size align
  change (s.memory.allocate size align).2.stack.size < 2 ^ (62 : Nat) at hs
  change s.memory.stack.size < 2 ^ (62 : Nat)
  omega

theorem le_size_of_write {memory : Memory} (h : memory.write address bytes = .ok memory') :
    memory.stack.size ≤ memory'.stack.size := by
  obtain ⟨-, -, rfl⟩ := Memory.write_eq_ok.mp h
  exact Nat.le_of_eq (Memory.size_overwrite ..).symm

theorem retains_store (cls : Class) (v : Value) (a : Nat) :
    bridge.Retains (changeMemory fun memory => memory.store cls v a) := by
  refine retains_changeMemory fun memory memory' h => ?_
  obtain ⟨bytes, -, hw⟩ := Memory.store_eq_ok h
  exact le_size_of_write hw

theorem retains_copy (source target size : Nat) :
    bridge.Retains (changeMemory fun memory => memory.copy source target size) := by
  refine retains_changeMemory fun memory memory' h => ?_
  obtain ⟨bytes, -, hw⟩ := Memory.copy_eq_ok h
  exact le_size_of_write hw

theorem retains_pass (cls : Class) (v : Value) : bridge.Retains (pass m cls v) := by
  unfold pass copyAggregate
  split
  · split
    · exact .throw _
    · exact (retains_allocate _ _).bind fun _ => (retains_orFault _).bind fun _ =>
        (retains_copy _ _ _).bind fun _ => .pure _
  · exact .pure _

theorem retains_keepResult (func : String) (temps : Temps) (result : Option Value)
    (dest : Option (String × Class)) : bridge.Retains (keepResult m func temps result dest) := by
  unfold keepResult
  split
  · exact .pure _
  · split
    · exact .throw _
    · exact (retains_pass _ _).bind fun _ => .pure _

theorem retains_perform (cls : Class) (op : Op) (args : List Value) :
    bridge.Retains (perform cls op args) := by
  unfold perform
  split
  · exact (retains_orFault _).bind fun _ => (retains_allocate _ _).bind fun _ => .pure _
  · exact retains_get.bind fun _ => retains_orFault _

section

variable (hcall : ∀ name args, bridge.Retains (call name args)) (temps : Temps)
include hcall

theorem retains_step (i : Instr) : bridge.Retains (step m call temps i) := by
  cases i with
  | label | jump | jumpIf | ret | halt => exact .pure _
  | assign dest cls op args =>
    exact (retains_orFault _).bind fun _ => (retains_perform _ _ _).bind fun _ => .pure _
  | store cls v a =>
    exact (retains_orFault _).bind fun _ => (retains_orFault _).bind fun _ =>
      (retains_store _ _ _).bind fun _ => .pure _
  | blit source target size =>
    exact (retains_orFault _).bind fun _ => (retains_orFault _).bind fun _ =>
      (retains_copy _ _ _).bind fun _ => .pure _
  | call dest func args =>
    exact (retains_orFault _).bind fun _ => (hcall _ _).bind fun _ => retains_keepResult _ _ _ _

theorem retains_straight (code : List Instr) : bridge.Retains (straight m call temps code) := by
  induction code generalizing temps with
  | nil => exact .pure _
  | cons i code ih => exact (retains_step hcall temps i).bind ih

theorem retains_steps (code : List Instr) : bridge.Retains (steps m call f temps code) := by
  induction code generalizing temps with
  | nil => exact .pure _
  | cons i code ih =>
    by_cases hi : i.isJump = false
    · rw [steps_cons hi]
      exact (retains_step hcall temps i).bind ih
    cases i with
    | jump => exact .pure _
    | jumpIf => exact (retains_orFault _).bind fun _ => .pure _
    | ret v =>
      cases v with
      | none => exact .pure _
      | some v => exact (retains_orFault _).bind fun _ => .pure _
    | halt => exact .throw _
    | label | assign | store | blit | call => exact absurd rfl hi

end

end

/-! ## Temporaries -/

def Temps.Le (temps temps' : Temps) : Prop :=
  ∀ t v, temps.lookup t = some v → temps'.lookup t = some v

theorem Temps.Le.refl (temps : Temps) : temps.Le temps := fun _ _ h => h

theorem Temps.Le.trans {temps : Temps} (h : temps.Le temps') (h' : temps'.Le temps'') :
    temps.Le temps'' :=
  fun t v hv => h' t v (h t v hv)

theorem Temps.Le.assign {temps : Temps} (h : temps.lookup t = none) (v : Value) :
    temps.Le (temps.assign t v) := by
  intro t' w hw
  rw [Temps.lookup_assign]
  split
  · next heq =>
    rw [heq, h] at hw
    cases hw
  · exact hw

theorem eval_mono (h : eval m temps o = .ok w) (hle : temps.Le temps') :
    eval m temps' o = .ok w := by
  cases o with
  | temp t => exact eval_temp.mpr (hle t w (eval_temp.mp h))
  | _ => exact h

/-! ## Running code -/

/-- What was drawn on a supply stays in later ones. -/
structure Supply.Le (s s' : Supply) : Prop where
  data : s.data <+: s'.data
  temps : s.nextTemp ≤ s'.nextTemp
  slots : s.slots <+: s'.slots

namespace Supply.Le

variable {s : Supply}

theorem refl : s.Le s := ⟨List.prefix_rfl, Nat.le_refl _, List.prefix_rfl⟩

theorem trans (h : s.Le s') (h' : s'.Le s'') : s.Le s'' :=
  ⟨h.data.trans h'.data, Nat.le_trans h.temps h'.temps, h.slots.trans h'.slots⟩

theorem bump : s.Le s.bump := ⟨List.prefix_rfl, Nat.le_succ _, List.prefix_rfl⟩

theorem length (h : s.Le s') : s.slots.length ≤ s'.slots.length := h.slots.length_le

end Supply.Le

theorem Draws.le (h : Draws s code s') : s.Le s' := by
  obtain ⟨new, hnew, -⟩ := h.slots
  exact ⟨h.data, h.temps, ⟨new, hnew.symm⟩⟩

/-- What the code of a function depends on while it runs. -/
structure Activation where
  module : Module
  call : Call
  findings : Findings
  layouts : Layouts
  /-- The supply in which lowering the function ended. -/
  final : Supply
  /-- The machine when the function was called. -/
  entry : Machine
  /-- Where in the stack the space starts that the function took, in order; after it, where it ends. -/
  spot : Nat → Nat

namespace Activation

variable (c : Activation)

def symbols : Symbols := c.findings.symbols

def env : Env := .ofFindings c.findings c.layouts

def top : Nat := c.spot c.final.slots.length

def eval (temps : Temps) (o : Operand) : Except Fault Value := Flat.eval c.module temps o

def run (temps : Temps) (code : List Instr) : Exec Temps := straight c.module c.call temps code

/-- The stack space of the function lies in order above what was there before. -/
structure Framed : Prop where
  laid : Measured c.symbols c.layouts
  packed : c.layouts.Packed
  nodup : (dests c.final.slots).Nodup
  below : c.entry.memory.stack.size ≤ c.spot 0
  room : ∀ k name align size,
    c.final.slots[k]? = some (.assign name .long (.alloc align) [.int size]) →
      c.spot k + addressOf size ≤ c.spot (k + 1)
  mono : Monotone c.spot
  retains : ∀ name args, bridge.Retains (c.call name args)

/-- What holds between two instructions: stack space is where it should be, and the temporaries that are
still to be given out are unset. -/
structure Running (s : Supply) (temps : Temps) (mach : Machine) : Prop where
  framed : c.Framed
  placed : ∀ k name align size,
    c.final.slots[k]? = some (.assign name .long (.alloc align) [.int size]) →
      ∃ x, temps.lookup name = some (.int x) ∧ addressOf x = stackBase + c.spot k
  fresh : ∀ n, s.nextTemp ≤ n → temps.lookup s!".t{n}" = none
  room : c.top ≤ mach.memory.stack.size
  small : mach.Small

/-- Code ran: from a state between two instructions to another one, with the stack up to a place as it
was. -/
structure Ran (lo : Nat) (temps : Temps) (mach : Machine) (s' : Supply) (temps' : Temps)
    (mach' : Machine) : Prop where
  running : c.Running s' temps' mach'
  given : lo ≤ c.spot s'.slots.length
  temps : temps.Le temps'
  memory : mach.Keeps lo (c.spot s'.slots.length) mach'

/-- A value of a type at a place in the stack is out of the way of code that keeps the stack up to some
place. -/
def Clear (lo : Nat) (ty : Ty) (start : Nat) : Prop :=
  start + c.layouts.sizeOf ty ≤ lo ∨ c.top ≤ start

def Denotes (temps : Temps) (mach : Machine) (lo : Nat) (o : Operand) (ty : Ty)
    (v : Meaning.Value) : Prop :=
  ∃ x, c.eval temps o = .ok (.int x) ∧
    Gives c.symbols c.layouts mach.memory.stack (c.Clear lo ty) ty v x

def Points (temps : Temps) (mach : Machine) (lo : Nat) (o : Operand) (ty : Ty)
    (v : Meaning.Value) : Prop :=
  ∃ x, c.eval temps o = .ok (.int x) ∧
    Leads c.symbols c.layouts mach.memory.stack (c.Clear lo ty) ty v x

def Means (temps : Temps) (mach : Machine) (lo : Nat) (ty : Ty) (v : Meaning.Value) : Lowered → Prop
  | .value ty' o => ty' = ty ∧ c.Denotes temps mach lo o ty v
  | .place ty' o => ty' = ty ∧ c.Points temps mach lo o ty v

end Activation

namespace Activation

variable {c : Activation} {s : Supply} {temps : Temps}

theorem run_append (temps : Temps) (code code' : List Instr) :
    c.run temps (code ++ code') = c.run temps code >>= fun temps => c.run temps code' :=
  List.foldlM_append

theorem run_singleton (temps : Temps) (i : Instr) :
    c.run temps [i] = step c.module c.call temps i :=
  bind_pure _

theorem Framed.retains_run (h : c.Framed) (temps : Temps) (code : List Instr) :
    bridge.Retains (c.run temps code) :=
  retains_straight h.retains temps code

/-! ### States -/

theorem Framed.le_top (h : c.Framed) (hle : s.Le c.final) : c.spot s.slots.length ≤ c.top :=
  h.mono hle.length

theorem Running.keeps (h : c.Running s temps mach) (hk : mach.Keeps lo hi mach')
    (hsmall : mach'.Small) : c.Running s temps mach' :=
  ⟨h.framed, h.placed, h.fresh, Nat.le_trans h.room hk.size, hsmall⟩

theorem Running.put (h : c.Running s temps mach) (start : Nat) (bytes : List UInt8) :
    c.Running s temps (mach.put start bytes) := by
  refine h.keeps (mach.keeps_put start bytes) ?_
  rw [Machine.Small, Machine.size_put]
  exact h.small

theorem Running.skip (h : c.Running s temps mach) (hle : s.Le s') : c.Running s' temps mach :=
  ⟨h.framed, h.placed, fun n hn => h.fresh n (Nat.le_trans hle.temps hn), h.room, h.small⟩

theorem Running.assign (h : c.Running s temps mach) (w : Value) :
    c.Ran (c.spot s.slots.length) temps mach s.bump (temps.assign s.temp w) mach ∧
      c.eval (temps.assign s.temp w) (.temp s.temp) = .ok w := by
  have hunset : temps.lookup s.temp = none := h.fresh _ (Nat.le_refl _)
  have hle : temps.Le (temps.assign s.temp w) := .assign hunset w
  refine ⟨⟨⟨h.framed, ?_, ?_, h.room, h.small⟩, Nat.le_refl _, hle, .refl⟩, ?_⟩
  · intro k name align size hk
    obtain ⟨x, hx, haddr⟩ := h.placed k name align size hk
    exact ⟨x, hle _ _ hx, haddr⟩
  · intro n hn
    rw [Temps.lookup_assign, if_neg]
    · exact h.fresh n (Nat.le_of_succ_le hn)
    · intro heq
      have : n = s.nextTemp := append_number_inj heq
      exact absurd hn (by simp [Supply.bump, this])
  · rw [eval, eval_temp, Temps.lookup_assign, if_pos rfl]

theorem slots_allocate (hle : (s.allocate hint align size).Le c.final) :
    c.final.slots[s.slots.length]? =
      some (.assign (s.slot hint) .long (.alloc align) [.int (Int64.ofNat size)]) := by
  obtain ⟨new, hnew⟩ := hle.slots
  rw [← hnew]
  simp [Supply.allocate]

theorem length_allocate (hint : String) (align size : Nat) :
    (s.allocate hint align size).slots.length = s.slots.length + 1 := by
  simp [Supply.allocate]

theorem Running.allocate (h : c.Running s temps mach) (hint : String) (align size : Nat) :
    c.Running (s.allocate hint align size) temps mach :=
  ⟨h.framed, h.placed, fun n hn => h.fresh n (Nat.le_of_succ_le hn), h.room, h.small⟩

theorem addressOf_ofNat (h : n < 2 ^ (64 : Nat)) : addressOf (Int64.ofNat n) = n := by
  have hzero : addressOf 0 + n = n := Nat.zero_add n
  rw [← Int64.zero_add (Int64.ofNat n), addressOf_add (by omega), hzero]

theorem Running.slot (h : c.Running s temps mach)
    (hk : c.final.slots[k]? =
      some (.assign name .long (.alloc align) [.int (Int64.ofNat (c.layouts.sizeOf ty))])) :
    ∃ x, c.eval temps (.temp name) = .ok (.int x) ∧ addressOf x = stackBase + c.spot k ∧
      c.spot k + c.layouts.sizeOf ty ≤ c.spot (k + 1) ∧ c.spot (k + 1) ≤ mach.memory.stack.size := by
  obtain ⟨x, hx, haddr⟩ := h.placed _ _ _ _ hk
  have hroom := h.framed.room _ _ _ _ hk
  rw [addressOf_ofNat (h.framed.packed.sizeOf_lt ty)] at hroom
  have hlt := (List.getElem?_eq_some_iff.mp hk).1
  have htop : c.spot (k + 1) ≤ c.top := h.framed.mono hlt
  exact ⟨x, eval_temp.mpr hx, haddr, hroom, Nat.le_trans htop h.room⟩

theorem Ran.refl (h : c.Running s temps mach) : c.Ran (c.spot s.slots.length) temps mach s temps mach :=
  ⟨h, Nat.le_refl _, .refl _, .refl⟩

theorem Ran.append (h : c.Ran lo temps mach s temps' mach')
    (h' : c.Ran lo' temps' mach' s' temps'' mach'') (hlo : lo ≤ lo')
    (hspot : c.spot s.slots.length ≤ c.spot s'.slots.length) :
    c.Ran lo temps mach s' temps'' mach'' :=
  ⟨h'.running, Nat.le_trans hlo h'.given, h.temps.trans h'.temps, h.memory.trans h'.memory hlo hspot⟩

theorem Ran.trans (h : c.Ran lo temps mach s temps' mach')
    (h' : c.Ran (c.spot s.slots.length) temps' mach' s' temps'' mach'') :
    c.Ran lo temps mach s' temps'' mach'' :=
  h.append h' h.given h'.given

theorem Ran.keep (hlo : lo' ≤ lo) (h : c.Ran lo temps mach s temps' mach') :
    c.Ran lo' temps mach s temps' mach' :=
  ⟨h.running, Nat.le_trans hlo h.given, h.temps, h.memory.mono hlo (Nat.le_refl _)⟩

/-! ### Operands -/

theorem Ran.bytes (h : c.Ran lo temps mach s temps' mach') (hle : s.Le c.final)
    (hclear : c.Clear lo ty start) (hi : i < c.layouts.sizeOf ty)
    (hsize : start + i < mach.memory.stack.size) :
    mach'.memory.stack[start + i]? = mach.memory.stack[start + i]? := by
  have htop := h.running.framed.le_top hle
  refine h.memory.bytes _ hsize ?_
  unfold Clear at hclear
  omega

theorem Clear.mono (h : c.Clear lo ty start) (hlo : lo ≤ lo') : c.Clear lo' ty start := by
  unfold Clear at h ⊢
  omega

theorem Denotes.mono (h : c.Denotes temps mach lo o ty v) (hr : c.Ran lo temps mach s temps' mach')
    (hle : s.Le c.final) (hlo : lo ≤ lo') : c.Denotes temps' mach' lo' o ty v := by
  obtain ⟨x, hx, hgives⟩ := h
  refine ⟨x, eval_mono hx hr.temps, ?_⟩
  exact (hgives.keeps hr.running.framed.laid hr.memory.size fun _ _ => hr.bytes hle).imp
    fun _ hs => hs.mono hlo

theorem Points.mono (h : c.Points temps mach lo o ty v) (hr : c.Ran lo temps mach s temps' mach')
    (hle : s.Le c.final) (hlo : lo ≤ lo') : c.Points temps' mach' lo' o ty v := by
  obtain ⟨x, hx, hleads⟩ := h
  refine ⟨x, eval_mono hx hr.temps, ?_⟩
  exact (hleads.keeps hr.running.framed.laid hr.memory.size fun _ _ => hr.bytes hle).imp
    fun _ hs => hs.mono hlo

/-! ### Instructions -/

theorem perform_eq (h : apply mach.memory cls op args = .ok w) :
    perform cls op args mach = .ok w mach := by
  unfold perform
  split
  · next align =>
    -- taking stack space is no operation on values
    exfalso
    obtain ⟨⟨l, r⟩, -, h⟩ := except_bind_eq_ok.mp h
    change arith _ _ l r = _ at h
    unfold arith at h
    split at h
    · obtain ⟨_, -, h⟩ := except_bind_eq_ok.mp h
      obtain ⟨_, -, h⟩ := except_bind_eq_ok.mp h
      cases h
    · obtain ⟨_, -, h⟩ := except_bind_eq_ok.mp h
      obtain ⟨_, -, h⟩ := except_bind_eq_ok.mp h
      cases h
  · rw [Execution.bind_of_ok (Execution.get_eq mach), h]
    rfl

theorem run_assign (hargs : args.mapM (Flat.eval c.module temps) = .ok ws)
    (h : apply mach.memory cls op ws = .ok w) :
    c.run temps [.assign t cls op args] mach = .ok (temps.assign t w) mach := by
  simp only [run_singleton, step, hargs]
  exact Execution.bind_of_ok (perform_eq h)

theorem run_add (hx : c.eval temps o = .ok (.int x)) :
    c.run temps [.assign t .long .add [o, .int y]] mach =
      .ok (temps.assign t (.int (x + y))) mach :=
  run_assign (evals_two hx rfl) rfl

theorem Points.run_load (h : c.Points temps mach lo o ty v) (hs : ty.isStruct = false)
    (hc : Class.ofSource ty = .ok cls) :
    ∃ x, c.run temps [.assign t cls (.load cls) [o]] mach = .ok (temps.assign t (.int x)) mach ∧
      Stands ty v x := by
  obtain ⟨y, hy, hleads⟩ := h
  obtain ⟨x, hload, hstands⟩ := hleads.load hs hc
  exact ⟨x, run_assign (evals_one hy) hload, hstands⟩

theorem run_store (hl : Measured c.symbols c.layouts) (hcode : StoreCode c.env o a ty code)
    (hd : c.Denotes temps mach lo o ty v) (ha : c.eval temps a = .ok (.int y))
    (haddr : addressOf y = stackBase + start)
    (hroom : start + c.layouts.sizeOf ty ≤ mach.memory.stack.size) :
    ∃ bytes, bytes.length = c.layouts.sizeOf ty ∧
      c.run temps code mach = .ok temps (mach.put start bytes) ∧
      Holds c.symbols c.layouts (mach.put start bytes).memory.stack ty v start := by
  obtain ⟨x, hx, hgives⟩ := hd
  simp only [eval] at hx ha
  cases hcode with
  | @struct name =>
    obtain ⟨bytes, hlen, hcopy, hholds⟩ := hgives.leads.copy hl rfl haddr hroom
    refine ⟨bytes, hlen, ?_, hholds⟩
    simp only [run_singleton, step, hx, ha]
    change (changeMemory (fun memory => memory.copy (addressOf x) (addressOf y) _) >>= _) mach = _
    have hchange : changeMemory (fun memory => memory.copy (addressOf x) (addressOf y)
        (c.env.layouts.sizeOf (.struct name))) mach = .ok () (mach.put start bytes) := by
      rw [changeMemory]
      rw [show mach.memory.copy (addressOf x) (addressOf y) (c.env.layouts.sizeOf (.struct name)) = _
        from hcopy]
      rfl
    exact Execution.bind_of_ok hchange
  | @scalar _ cls hs hc =>
    obtain ⟨bytes, hlen, hstore, hholds⟩ := (hgives.stands hs).store c.layouts hc haddr hroom
    refine ⟨bytes, hlen, ?_, hholds⟩
    simp only [run_singleton, step, hx, ha]
    have hchange : changeMemory (fun memory => memory.store cls (.int x) (addressOf y)) mach =
        .ok () (mach.put start bytes) := by
      rw [changeMemory, hstore]
      rfl
    exact Execution.bind_of_ok hchange

end Activation

end StructLang.Flat
