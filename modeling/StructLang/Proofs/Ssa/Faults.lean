import StructLang.Proofs.Ssa.Dominance
import StructLang.Proofs.Ssa.Structure
import StructLang.Proofs.Stops
import StructLang.Ssa.Run

/-!
# What stops SSA code

The operations on values and memory have plain faults only. So what stops an instruction or the end of a
block is told from what stops its operands and the functions that it calls, and what stops a run from an
invariant of the blocks through which it passes.
-/

namespace StructLang.Ssa

open Execution

/-- A fault of values or memory, or the end of a foreign function or of nesting. -/
def Fault.isPlain : Fault → Bool
  | .missingBlock | .unterminated | .missingArgument | .unknownFunction _ | .unset _ | .unreachable _ => false
  | _ => true

abbrev Plain {α : Type} (x : Except Fault α) : Prop := Fails x fun e => e.isPlain = true

namespace Plain

open Fails

theorem get (path : List Nat) (v : Value) : Plain (v.get path) := by
  induction path generalizing v with
  | nil => exact ok v
  | cons i path ih =>
    cases v with
    | aggregate fields =>
      rw [Value.get]
      split
      · exact ih _
      · exact error rfl
    | _ => exact error rfl

theorem set (new : Value) (path : List Nat) (v : Value) : Plain (Value.set new path v) := by
  induction path generalizing v with
  | nil => exact ok new
  | cons i path ih =>
    cases v with
    | aggregate fields =>
      rw [Value.set]
      split
      · exact (ih _).bind fun w => ok _
      · exact error rfl
    | _ => exact error rfl

theorem intArith (op : ArithOp) (ty : Ty) (a b : Int64) : Plain (intArith op ty a b) := by
  cases op with
  | sdiv | srem =>
    simp only [Ssa.intArith]
    split
    · exact error rfl
    · exact ok _
  | fadd | fsub | fmul | fdiv => exact error rfl
  | _ => exact ok _

theorem arith (op : ArithOp) (ty : Ty) (l r : Value) : Plain (arith op ty l r) := by
  unfold Ssa.arith
  split
  · exact (intArith op ty _ _).bind fun _ => ok _
  · refine bind ?_ fun _ => ok _
    cases op <;> first | exact ok _ | exact error rfl
  · exact error rfl

theorem compare (pred : Predicate) (l r : Value) : Plain (compare pred l r) := by
  unfold Ssa.compare
  split
  · refine map ?_
    cases pred <;> first | exact ok _ | exact error rfl
  · refine map ?_
    cases pred <;> first | exact ok _ | exact error rfl
  · exact error rfl

theorem convert (op : CastOp) (target : Ty) (v : Value) : Plain (convert op target v) := by
  unfold Ssa.convert
  split <;> first | exact ok _ | exact error rfl

theorem textAt (m : Module) (v : Value) : Plain (textAt m v) := by
  unfold Ssa.textAt
  split
  · split
    · exact ok _
    · exact error rfl
  · exact error rfl

theorem foreignText (m : Module) (name : String) (args : List Value) : Plain (foreignText m name args) := by
  have harg : ∀ v, Plain (printfArg m v) := by
    intro v
    cases v with
    | ptr a => exact (textAt m _).map
    | int v | float v => exact ok _
    | _ => exact error rfl
  unfold Ssa.foreignText
  split
  · split
    · exact error rfl
    · exact (textAt m _).bind fun fmt => (mapM harg).bind fun rest => mapError fun _ => rfl
  · split
    · exact error rfl
    · exact (textAt m _).bind fun _ => ok _
  · exact error rfl

end Plain

/-! ## Single steps -/

section

variable {P : Stop Fault → Prop}

theorem fails_zeroFields {zero : Ty → Except (Stop Fault) Value}
    (h : ∀ ty ∈ fields, Fails (zero ty) P) : Fails (zeroFields zero fields) P := by
  induction fields with
  | nil => exact .ok []
  | cons ty rest ih =>
    obtain ⟨hty, hrest⟩ := List.forall_mem_cons.mp h
    exact hty.bind fun v => (ih hrest).bind fun vs => .ok (v :: vs)

theorem stops_zero (h : Fails (zeroValue m m.structs.length ty) P) : Stops (zero m ty) P := by
  unfold zero
  split
  · exact .pure _
  · next stop hstop => exact .throw (h stop hstop)

theorem stops_allocate (v : Value) : Stops (allocate v) P :=
  Stops.get.bind fun _ => (Stops.modify _).bind fun _ => .pure _

variable (hplain : ∀ e : Fault, e.isPlain = true → P (.fault e))
include hplain

theorem fails_zeroValue (hbudget : P .outOfBudget) (depth : Nat) (ty : Ty) :
    Fails (zeroValue m depth ty) P := by
  induction depth generalizing ty with
  | zero =>
    cases ty with
    | struct name =>
      rw [zeroValue]
      split
      · exact .error (hplain _ rfl)
      · exact .error hbudget
    | _ => exact .ok _
  | succ depth ih =>
    cases ty with
    | struct name =>
      rw [zeroValue]
      split
      · exact .error (hplain _ rfl)
      · exact (fails_zeroFields fun ty _ => ih ty).bind fun _ => .ok _
    | _ => exact .ok _

theorem stops_orFault (h : Plain r) : Stops (orFault r) P := by
  unfold orFault
  cases r with
  | ok a => exact .pure a
  | error e => exact .throw (hplain e (h e rfl))

theorem stops_read (a : Address) : Stops (read a) P := by
  unfold read
  split
  · exact .throw (hplain _ rfl)
  · refine Stops.get.bind fun s => ?_
    split
    · exact .throw (hplain _ rfl)
    · exact stops_orFault hplain (.get _ _)

theorem stops_write (a : Address) (v : Value) : Stops (write a v) P := by
  unfold write
  split
  · exact .throw (hplain _ rfl)
  · refine Stops.get.bind fun s => ?_
    split
    · exact .throw (hplain _ rfl)
    · exact (stops_orFault hplain (.set _ _ _)).bind fun _ => .modify _

theorem stops_callForeign
    (hname : m.foreign? name = none → P (.fault (.unknownFunction name))) (values : List Value) :
    Stops (callForeign m name values) P := by
  unfold callForeign
  split
  · next hnone => exact .throw (hname hnone)
  · exact (stops_orFault hplain (.foreignText m name values)).bind fun text =>
      ((Stops.modify _).bind fun _ => .pure _).bind fun _ => .pure _

theorem stops_evalAddress (h : Stops (eval m args regs v) P) :
    Stops (evalAddress m args regs v) P := by
  refine h.bind fun w => ?_
  split
  · exact .pure _
  · exact .throw (hplain _ rfl)

/-- An instruction stops as its operands do, or the function that it calls. -/
theorem stops_step (hzero : ∀ ty, Stops (zero m ty) P)
    (heval : ∀ v ∈ i.operands, Stops (eval m args regs v) P)
    (hcall : ∀ dest name ret params operands, i = .call dest name ret params operands →
      ∀ values, Stops (call name values) P) : Stops (step m call args regs i) P := by
  have haddress : ∀ v ∈ i.operands, Stops (evalAddress m args regs v) P :=
    fun v hv => stops_evalAddress hplain (heval v hv)
  cases i with
  | alloca r ty => exact (hzero ty).bind fun v => (stops_allocate v).bind fun _ => .pure _
  | load r ty a =>
    exact (haddress a (by simp [Instr.operands])).bind fun a => (stops_read hplain a).bind fun _ => .pure _
  | store ty v a =>
    exact (heval v (by simp [Instr.operands])).bind fun v =>
      (haddress a (by simp [Instr.operands])).bind fun a => (stops_write hplain a v).bind fun _ => .pure _
  | field r struct base index =>
    exact (haddress base (by simp [Instr.operands])).bind fun _ => .pure _
  | arith r op ty l r' =>
    exact (heval l (by simp [Instr.operands])).bind fun v =>
      (heval r' (by simp [Instr.operands])).bind fun w =>
        (stops_orFault hplain (.arith op ty v w)).bind fun _ => .pure _
  | compare r pred ty l r' =>
    exact (heval l (by simp [Instr.operands])).bind fun v =>
      (heval r' (by simp [Instr.operands])).bind fun w =>
        (stops_orFault hplain (.compare pred v w)).bind fun _ => .pure _
  | cast r op v source target =>
    exact (heval v (by simp [Instr.operands])).bind fun v =>
      (stops_orFault hplain (.convert op target v)).bind fun _ => .pure _
  | call dest name ret params operands =>
    exact (Stops.mapM fun p hp => heval p.2 (List.mem_map_of_mem hp)).bind fun values =>
      (hcall dest name ret params operands rfl values).bind fun _ => .pure _

theorem stops_exit (heval : ∀ v ∈ t.operands, Stops (eval m args regs v) P)
    (hend : t = .unreachable → P (.fault (.unreachable f.name))) :
    Stops (exit m f args regs (some t)) P := by
  cases t with
  | ret v =>
    cases v with
    | none => exact .pure _
    | some v => exact (heval _ (by simp [Terminator.operands])).bind fun _ => .pure _
  | jump target => exact .pure _
  | branch cond t e =>
    refine (heval cond (by simp [Terminator.operands])).bind fun v => ?_
    split
    · exact .pure _
    · exact .throw (hplain _ rfl)
  | unreachable => exact .throw (hend rfl)

end

/-! ## Runs -/

/-- Control goes along the edges. -/
theorem edge_of_exit (hb : f.blocks[k]? = some b)
    (h : exit m f args regs b.terminator s = .ok (.goto next) s') : Edge f.blocks k next := by
  refine ⟨b, hb, ?_⟩
  unfold Block.successors
  cases ht : b.terminator with
  | none =>
    rw [ht] at h
    cases h
  | some t =>
    rw [ht] at h
    cases t with
    | ret v =>
      cases v with
      | none => cases h
      | some v =>
        obtain ⟨_, _, -, h⟩ := Execution.bind_eq_ok.mp h
        cases h
    | jump target =>
      cases h
      exact List.mem_singleton_self _
    | branch cond t e =>
      obtain ⟨v, _, -, h⟩ := Execution.bind_eq_ok.mp h
      cases v with
      | int c =>
        cases h
        simp only [Terminator.successors]
        split <;> simp
      | _ => cases h
    | unreachable => cases h

section

variable {call : Call}
  (hfault : ∀ e : Fault, (∀ g, e ≠ .unreachable g) → P (.fault e)) (hzero : ∀ ty, Stops (zero m ty) P)
  (hcall : ∀ name values, Stops (call name values) P)
include hfault

theorem plain_of_fault (e : Fault) (h : e.isPlain = true) : P (.fault e) := by
  refine hfault e ?_
  rintro g rfl
  cases h

theorem stops_callAt
    (hfunctions : ∀ f ∈ m.functions, ∀ call : Call, (∀ name values, Stops (call name values) P) →
      ∀ args, Stops (runBlocks m call f args budget [] 0) P)
    (depth : Nat) (name : String) (values : List Value) :
    Stops (callAt m budget depth name values) P := by
  have hforeign : ∀ name values, Stops (callForeign m name values) P :=
    fun name => stops_callForeign (plain_of_fault hfault) fun _ => hfault _ (by simp)
  induction depth generalizing name values with
  | zero =>
    rw [callAt]
    split
    · exact hforeign name values
    · exact .throw (hfault _ (by simp))
  | succ depth ih =>
    rw [callAt]
    split
    · exact hforeign name values
    · next f hf => exact hfunctions f (List.mem_of_find?_eq_some hf) _ ih values

include hzero

theorem stops_eval (v : Operand) : Stops (eval m args regs v) P := by
  cases v with
  | register r | param i =>
    rw [eval]
    split
    · exact .pure _
    · exact .throw (hfault _ (by simp))
  | zero ty => exact hzero ty
  | _ => exact .pure _

include hcall

theorem stops_steps (code : List Instr) : Stops (steps m call args regs code) P := by
  induction code generalizing regs with
  | nil => exact .pure _
  | cons i rest ih =>
    exact (stops_step (plain_of_fault hfault) hzero (fun v _ => stops_eval hfault hzero v)
      fun _ name _ _ _ _ => hcall name).bind fun _ => ih

/-- An invariant of the budget that is left and the block, kept along the edges, tells what stops a
run. -/
theorem stops_runBlocks {I : Nat → Nat → Prop} (hout : ∀ k, I 0 k → P .outOfBudget)
    (hnext : ∀ budget k next, I (budget + 1) k → Edge f.blocks k next → I budget next)
    (hend : ∀ budget k b, I budget k → f.blocks[k]? = some b → b.terminator = some .unreachable →
      P (.fault (.unreachable f.name)))
    (hk : I budget k) : Stops (runBlocks m call f args budget regs k) P := by
  induction budget generalizing regs k with
  | zero => exact .throw (hout k hk)
  | succ budget ih =>
    rw [runBlocks]
    split
    · exact .throw (hfault _ (by simp))
    · next b hb =>
      refine (stops_steps hfault hzero hcall _).bind fun regs' => ?_
      have hexit : Stops (exit m f args regs' b.terminator) P := by
        cases ht : b.terminator with
        | none => exact .throw (hfault _ (by simp))
        | some t =>
          refine stops_exit (plain_of_fault hfault) (fun v _ => stops_eval hfault hzero v) ?_
          rintro rfl
          exact hend _ k b hk hb ht
      refine hexit.seq (Q := fun e => ∀ next, e = .goto next → Edge f.blocks k next) ?_ fun e he => ?_
      · rintro s _ s' h next rfl
        exact edge_of_exit hb h
      · cases e with
        | ret v => exact .pure _
        | goto next => exact ih (hnext budget k next hk (he next rfl))

end

end StructLang.Ssa
