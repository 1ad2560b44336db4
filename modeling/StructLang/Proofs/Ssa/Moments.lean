import Mathlib.Logic.Relation
import StructLang.Proofs.Execution
import StructLang.Ssa.Run

/-!
# The moments of a run

A run taken apart into single turns: one instruction, the start of a call, the end of a block. Between
two turns stands a moment, with the invocations that are under way and the types for which memory cells
were made. What running a module gives is what its turns lead to.
-/

namespace StructLang.Ssa

/-- An invocation under way, with what is left of the block in which it is. -/
structure Frame where
  func : Function
  args : List Value
  regs : Registers
  code : List Instr
  last : Option Terminator

namespace Frame

def enter (func : Function) (args : List Value) (regs : Registers) (b : Block) : Frame :=
  ⟨func, args, regs, b.instrs, b.terminator⟩

/-- After the call that comes first has given a result. -/
def resume (f : Frame) (result : Option Value) : Frame :=
  match f.code with
  | .call (some r) .. :: rest =>
    match result with
    | some v => { f with regs := f.regs.assign r v, code := rest }
    | none => { f with code := rest }
  | _ :: rest => { f with code := rest }
  | [] => f

theorem func_resume (f : Frame) (result : Option Value) : (f.resume result).func = f.func := by
  unfold resume
  split
  · split <;> rfl
  · rfl
  · rfl

end Frame

/-- The function of the module that an instruction calls, and the arguments. -/
def Instr.callee? (m : Module) : Instr → Option (Function × List (Ty × Operand))
  | .call _ name _ _ args => (m.function? name).map fun f => (f, args)
  | _ => none

def Instr.made : Instr → List Ty
  | .alloca _ ty => [ty]
  | _ => []

/-- What a turn leads to. -/
inductive Turn where
  | on (top : Frame) (callers : List Frame) (made : List Ty)
  | over (result : Option Value)

/-- Begin an invocation, unless there are too many. -/
def begin (g : Function) (callers : List Frame) (values : List Value) : Exec Turn :=
  if maxDepth ≤ callers.length then fault .callDepth
  else
    match g.blocks[0]? with
    | none => fault .missingBlock
    | some b => return .on (.enter g values [] b) callers []

/-- Go where a block is left for. -/
def leave (f : Frame) (callers : List Frame) : Exit → Exec Turn
  | .goto k =>
    match f.func.blocks[k]? with
    | none => fault .missingBlock
    | some b => return .on (.enter f.func f.args f.regs b) callers []
  | .ret v =>
    match callers with
    | [] => return .over v
    | caller :: rest => return .on (caller.resume v) rest []

/-- Run until the next moment. -/
def turn (m : Module) (f : Frame) (callers : List Frame) : Exec Turn :=
  match f.code with
  | [] => do leave f callers (← exit m f.func f.args f.regs f.last)
  | i :: code =>
    match i.callee? m with
    | some (g, operands) => do
      begin g (f :: callers) (← operands.mapM fun p => eval m f.args f.regs p.2)
    | none => do
      let regs ← step m (callForeign m) f.args f.regs i
      return .on { f with regs, code } callers i.made

/-- A moment of a run. -/
structure Moment where
  top : Frame
  /-- The invocations that wait for a result, the last one first. -/
  callers : List Frame
  /-- The types for which the memory cells were made. -/
  cells : List Ty
  machine : Machine

def Moment.turn (m : Module) (M : Moment) : EStateM.Result (Stop Fault) Machine Turn :=
  Ssa.turn m M.top M.callers M.machine

/-- One moment comes right after another. -/
inductive Next (m : Module) (M : Moment) : Moment → Prop where
  | mk {top : Frame} {callers : List Frame} {made : List Ty} {s : Machine}
      (h : M.turn m = .ok (.on top callers made) s) : Next m M ⟨top, callers, M.cells ++ made, s⟩

def Reaches (m : Module) : Moment → Moment → Prop := Relation.ReflTransGen (Next m)

/-- The run of a module passes through a moment. -/
inductive Module.Passes (m : Module) (M : Moment) : Prop where
  | mk {f : Function} {b : Block} (hf : m.function? entryPoint = some f) (hb : f.blocks[0]? = some b)
      (h : Reaches m ⟨.enter f [] [] b, [], [], ⟨#[], ""⟩⟩ M)

/-! ## Runs are made of turns -/

section

variable {β β' : Type}

/-- The turns after a moment lead to what a part of the run gives. -/
def Unfolds (m : Module) (M : Moment) (r : EStateM.Result (Stop Fault) Machine β)
    (Q : β → Machine → Moment → Prop) : Prop :=
  match r with
  | .ok b s => ∃ M', Reaches m M M' ∧ Q b s M'
  | .error (.fault f) s => ∃ M', Reaches m M M' ∧ M'.turn m = .error (.fault f) s
  | .error .outOfBudget _ => True

namespace Unfolds

theorem ok (h : Q b s M) : Unfolds m M (.ok b s) Q := ⟨M, .refl, h⟩

theorem fault (h : M.turn m = .error (.fault f) s) :
    Unfolds m M (.error (.fault f) s) Q := ⟨M, .refl, h⟩

theorem after (hM : Reaches m M M') (h : Unfolds m M' r Q) : Unfolds m M r Q := by
  match r with
  | .ok b s | .error (.fault f) s =>
    obtain ⟨M'', hM', h⟩ := h
    exact ⟨M'', hM.trans hM', h⟩
  | .error .outOfBudget s => exact True.intro

theorem bind {y : β → Exec β'} (h : Unfolds m M (x s) Q)
    (hy : ∀ b s' M', Q b s' M' → Unfolds m M' (y b s') Q') : Unfolds m M ((x >>= y) s) Q' := by
  cases hx : x s with
  | ok b s' =>
    rw [hx] at h
    obtain ⟨M', hM, hQ⟩ := h
    rw [Execution.bind_of_ok hx]
    exact .after hM (hy b s' M' hQ)
  | error stop s' =>
    rw [Execution.bind_of_error hx]
    rw [hx] at h
    cases stop with
    | fault f => exact h
    | outOfBudget => exact True.intro

theorem mono {Q' : β → Machine → Moment → Prop} (h : Unfolds m M r Q)
    (hQ : ∀ b s M', Q b s M' → ∃ M'', Reaches m M' M'' ∧ Q' b s M'') : Unfolds m M r Q' := by
  match r with
  | .ok b s =>
    obtain ⟨M', hM, hb⟩ := h
    obtain ⟨M'', hM', hb⟩ := hQ b s M' hb
    exact ⟨M'', hM.trans hM', hb⟩
  | .error (.fault f) s => exact h
  | .error .outOfBudget s => exact True.intro

theorem part {y : β → Exec Turn} (h : M.turn m = (x >>= y) M.machine) :
    Unfolds m M (x M.machine) fun b s M' => M' = M ∧ M.turn m = y b s := by
  cases hx : x M.machine with
  | ok b s =>
    rw [Execution.bind_of_ok hx] at h
    exact .ok ⟨rfl, h⟩
  | error stop s =>
    rw [Execution.bind_of_error hx] at h
    cases stop with
    | fault f => exact .fault h
    | outOfBudget => exact True.intro

end Unfolds

end

/-- An instruction that calls no function of the module does not depend on how these are called. -/
theorem step_of_callee?_eq_none (h : i.callee? m = none) :
    step m (callAt m budget depth) args regs i = step m (callForeign m) args regs i := by
  cases i with
  | call dest name ret params operands =>
    have hname : m.function? name = none := Option.map_eq_none_iff.mp h
    have hcall : ∀ values, callAt m budget depth name values = callForeign m name values := by
      intro values
      rw [callAt, hname]
    simp only [step, hcall]
  | _ => rfl

/-- Invocations that begin at a depth are made of turns. -/
def InvocationsUnfold (m : Module) (budget depth : Nat) : Prop :=
  ∀ (f : Function) (args : List Value) (regs : Registers) (callers : List Frame) (cells : List Ty)
    (s : Machine) (n k : Nat) (b : Block), callers.length + 1 + depth = maxDepth →
    f.blocks[k]? = some b →
    Unfolds m ⟨.enter f args regs b, callers, cells, s⟩
      (runBlocks m (callAt m budget depth) f args n regs k s)
      fun v s' M => M.callers = callers ∧ M.turn m = leave M.top callers (.ret v) s'

theorem call_unfolds (hg : m.function? name = some g)
    (hdepth : callers.length + 1 + depth = maxDepth)
    (hcalls : ∀ d, depth = d + 1 → InvocationsUnfold m budget d) :
    Unfolds m ⟨⟨f, args, regs, .call dest name ret params operands :: code, last⟩, callers, cells, s⟩
      (step m (callAt m budget depth) args regs (.call dest name ret params operands) s)
      fun regs' s' M => ∃ cells', M = ⟨⟨f, args, regs', code, last⟩, callers, cells', s'⟩ := by
  generalize hframe : (⟨f, args, regs, .call dest name ret params operands :: code, last⟩ : Frame) =
    frame
  have hturn : Moment.turn m ⟨frame, callers, cells, s⟩ =
      ((operands.mapM fun p => eval m args regs p.2) >>= begin g (frame :: callers)) s := by
    rw [Moment.turn, turn, ← hframe]
    simp only [Instr.callee?, hg, Option.map_some]
  refine (Unfolds.part hturn).bind fun values s' M hM => ?_
  obtain ⟨rfl, hM⟩ := hM
  cases depth with
  | zero =>
    have hcall : callAt m budget 0 name values = fault .callDepth := by rw [callAt, hg]
    have hdeep : maxDepth ≤ (frame :: callers).length := Nat.le_of_eq hdepth.symm
    rw [hcall]
    rw [begin, if_pos hdeep] at hM
    exact .fault hM
  | succ depth =>
    have hcall : callAt m budget (depth + 1) name values =
        runBlocks m (callAt m budget depth) g values budget [] 0 := by rw [callAt, hg]
    have hdeep : ¬maxDepth ≤ (frame :: callers).length := by
      rw [List.length_cons]
      omega
    rw [hcall]
    rw [begin, if_neg hdeep] at hM
    cases hb : g.blocks[0]? with
    | none =>
      rw [hb] at hM
      cases budget with
      | zero => exact True.intro
      | succ budget =>
        rw [runBlocks, hb]
        exact .fault hM
    | some b =>
      rw [hb] at hM
      have hroom : (frame :: callers).length + 1 + depth = maxDepth := by
        rw [List.length_cons]
        omega
      have hrun := hcalls depth rfl g values [] (frame :: callers) (cells ++ []) s' budget 0 b hroom hb
      refine .after (.single (.mk hM)) (hrun.bind fun v s'' M' hM' => ?_)
      obtain ⟨hcallers, hM'⟩ := hM'
      refine .after (.single (.mk hM')) (.ok ⟨M'.cells ++ [], ?_⟩)
      rw [← hframe]
      cases dest <;> cases v <;> rfl

theorem step_unfolds (i : Instr) (hdepth : callers.length + 1 + depth = maxDepth)
    (hcalls : ∀ d, depth = d + 1 → InvocationsUnfold m budget d) :
    Unfolds m ⟨⟨f, args, regs, i :: code, last⟩, callers, cells, s⟩
      (step m (callAt m budget depth) args regs i s)
      fun regs' s' M => ∃ cells', M = ⟨⟨f, args, regs', code, last⟩, callers, cells', s'⟩ := by
  cases hi : i.callee? m with
  | none =>
    have hturn : Moment.turn m ⟨⟨f, args, regs, i :: code, last⟩, callers, cells, s⟩ =
        (step m (callForeign m) args regs i >>= fun regs' =>
          pure (.on ⟨f, args, regs', code, last⟩ callers i.made)) s := by
      rw [Moment.turn, turn]
      simp only [hi]
    rw [step_of_callee?_eq_none hi]
    refine (Unfolds.part hturn).mono fun regs' s' M hM => ?_
    obtain ⟨rfl, hM⟩ := hM
    exact ⟨_, .single (.mk hM), _, rfl⟩
  | some callee =>
    cases i with
    | call dest name ret params operands =>
      obtain ⟨g, hg, -⟩ := Option.map_eq_some_iff.mp hi
      exact call_unfolds hg hdepth hcalls
    | _ => cases hi

theorem steps_unfolds (code : List Instr) (hdepth : callers.length + 1 + depth = maxDepth)
    (hcalls : ∀ d, depth = d + 1 → InvocationsUnfold m budget d) :
    Unfolds m ⟨⟨f, args, regs, code, last⟩, callers, cells, s⟩
      (steps m (callAt m budget depth) args regs code s)
      fun regs' s' M => ∃ cells', M = ⟨⟨f, args, regs', [], last⟩, callers, cells', s'⟩ := by
  induction code generalizing regs cells s with
  | nil => exact .ok ⟨cells, rfl⟩
  | cons i code ih =>
    refine (step_unfolds i hdepth hcalls).bind fun regs' s' M hM => ?_
    obtain ⟨cells', rfl⟩ := hM
    exact ih

theorem invocation_unfolds (hcalls : ∀ d, depth = d + 1 → InvocationsUnfold m budget d) :
    InvocationsUnfold m budget depth := by
  intro f args regs callers cells s n k b hdepth hb
  induction n generalizing regs cells s k b with
  | zero => exact True.intro
  | succ n ih =>
    rw [runBlocks, hb]
    refine (steps_unfolds b.instrs hdepth hcalls).bind fun regs' s' M hM => ?_
    obtain ⟨cells', rfl⟩ := hM
    refine (Unfolds.part (y := leave ⟨f, args, regs', [], b.terminator⟩ callers) rfl).bind
      fun e s'' M hM => ?_
    obtain ⟨rfl, hM⟩ := hM
    cases e with
    | ret v => exact .ok ⟨rfl, hM⟩
    | goto k' =>
      cases hb' : f.blocks[k']? with
      | none =>
        rw [leave, hb'] at hM
        cases n with
        | zero => exact True.intro
        | succ n =>
          simp only [runBlocks, hb']
          exact .fault hM
      | some b' =>
        rw [leave, hb'] at hM
        exact .after (.single (.mk hM)) (ih _ _ _ _ _ hb')

theorem invocations_unfold (m : Module) (budget depth : Nat) : InvocationsUnfold m budget depth := by
  induction depth with
  | zero => exact invocation_unfolds nofun
  | succ depth ih =>
    refine invocation_unfolds fun d hd => ?_
    cases hd
    exact ih

theorem execute_eq (hf : m.function? entryPoint = some f) (budget : Nat) :
    m.execute budget = runBlocks m (callAt m budget (maxDepth - 1)) f [] budget [] 0 ⟨#[], ""⟩ := by
  rw [Module.execute, show maxDepth = (maxDepth - 1) + 1 from rfl, callAt, hf]
  rfl

theorem execute_unfolds (hf : m.function? entryPoint = some f)
    (hb : f.blocks[0]? = some b) (budget : Nat) :
    Unfolds m ⟨.enter f [] [] b, [], [], ⟨#[], ""⟩⟩ (m.execute budget)
      fun v s M => M.turn m = .ok (.over v) s := by
  rw [execute_eq hf]
  refine (invocations_unfold m budget (maxDepth - 1) f [] [] [] [] ⟨#[], ""⟩ budget 0 b ?_ hb).mono
    fun v s M hM => ⟨M, .refl, hM.2⟩
  decide

end StructLang.Ssa
