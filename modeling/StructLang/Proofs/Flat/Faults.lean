import StructLang.Proofs.Flat.Effects
import StructLang.Proofs.Stops

/-!
# What stops flat code

Only `halt` has the fault of a halt; those of all other operations are plain. So what stops a run is told
from an invariant of the positions to which its jumps lead.
-/

namespace StructLang.Flat

open Execution

def Fault.isPlain : Fault → Bool
  | .halted _ => false
  | _ => true

abbrev Plain {α : Type} (x : Except Fault α) : Prop := Fails x fun e => e.isPlain = true

namespace Plain

open Fails

theorem asInt (v : Value) : Plain v.asInt := by
  cases v <;> first | exact ok _ | exact error rfl

theorem asFloat (v : Value) : Plain v.asFloat := by
  cases v <;> first | exact ok _ | exact error rfl

theorem asAddress (v : Value) : Plain v.asAddress := (asInt v).bind fun _ => ok _

theorem eval (m : Module) (temps : Temps) (v : Operand) : Plain (eval m temps v) := by
  cases v with
  | temp name | global name =>
    rw [Flat.eval]
    split
    · exact ok _
    · exact error rfl
  | _ => exact ok _

theorem read (memory : Memory) (address size : Nat) : Plain (memory.read address size) := by
  unfold Memory.read
  dsimp only
  split
  · exact error rfl
  · split
    · exact ok _
    · exact error rfl

theorem write (memory : Memory) (address : Nat) (bytes : List UInt8) :
    Plain (memory.write address bytes) := by
  unfold Memory.write
  dsimp only
  split
  · exact error rfl
  · split
    · exact ok _
    · exact error rfl

theorem store (memory : Memory) (cls : Class) (v : Value) (address : Nat) :
    Plain (memory.store cls v address) := by
  refine bind ?_ fun bytes => write memory address bytes
  cases cls with
  | single | double => exact (asFloat v).bind fun _ => ok _
  | _ => exact (asInt v).bind fun _ => ok _

theorem copy (memory : Memory) (source target size : Nat) : Plain (memory.copy source target size) :=
  (read memory source size).bind fun bytes => write memory target bytes

theorem text (memory : Memory) (address : Nat) : Plain (memory.text address) := by
  have hbytes : ∀ steps address, Plain (memory.bytesUntilZero steps address) := by
    intro steps
    induction steps with
    | zero => exact fun _ => error rfl
    | succ steps ih =>
      intro address
      refine (read memory address 1).bind fun bytes => ?_
      split
      · split
        · exact ok _
        · exact (ih _).bind fun _ => ok _
      · exact ok _
  exact (hbytes _ _).bind fun _ => mapError fun _ => rfl

theorem first (op : Op) (args : List Value) : Plain (first op args) := by
  cases args <;> first | exact ok _ | exact error rfl

theorem both (op : Op) (args : List Value) : Plain (both op args) := by
  unfold Flat.both
  split <;> first | exact ok _ | exact error rfl

theorem compare (cond : Cond) (cls : Class) (l r : Value) : Plain (compare cond cls l r) := by
  unfold Flat.compare
  split
  · refine (asFloat l).bind fun a => (asFloat r).bind fun b => bind ?_ fun _ => ok _
    cases cond <;> first | exact ok _ | exact error rfl
  · refine (asInt l).bind fun a => (asInt r).bind fun b => bind ?_ fun _ => ok _
    cases cond <;> first | exact ok _ | exact error rfl

theorem arith (op : Op) (cls : Class) (l r : Value) : Plain (arith op cls l r) := by
  unfold Flat.arith
  split
  · refine (asFloat l).bind fun a => (asFloat r).bind fun b => bind ?_ fun _ => ok _
    unfold floatArith
    split <;> first | exact ok _ | exact error rfl
  · refine (asInt l).bind fun a => (asInt r).bind fun b => bind ?_ fun _ => ok _
    unfold intArith
    split <;> first | exact ok _ | exact error rfl | (split <;> first | exact ok _ | exact error rfl)

theorem apply (memory : Memory) (cls : Class) (op : Op) (args : List Value) :
    Plain (apply memory cls op args) := by
  unfold Flat.apply
  split
  · exact (first _ _).bind fun v => (asAddress v).bind fun a => (read memory a _).bind fun _ => ok _
  · exact (first _ _).bind fun _ => ok _
  · refine (first _ _).bind fun v => ?_
    cases v <;> exact ok _
  · exact (both _ _).bind fun p => compare _ _ p.1 p.2
  iterate 2 exact (first _ _).bind fun v => (asInt v).bind fun _ => ok _
  iterate 4 exact (first _ _).bind fun v => (asFloat v).bind fun _ => ok _
  iterate 2 exact (first _ _).bind fun v => (asInt v).bind fun _ => ok _
  · exact (both _ _).bind fun p => arith _ _ p.1 p.2

theorem foreignText (memory : Memory) (name : String) (args : List Value) :
    Plain (foreignText memory name args) := by
  have hargs : ∀ (values : List Value) (ps : List (List Char)), Plain (printfArgs memory ps values) := by
    intro values
    induction values with
    | nil => exact fun _ => ok _
    | cons v rest ih =>
      intro ps
      refine bind ?_ fun _ => (ih _).bind fun _ => ok _
      cases v with
      | int v =>
        rw [printfArg]
        split
        · exact (text memory _).map
        · exact ok _
      | single v | double v => exact ok _
  unfold Flat.foreignText
  split
  · split
    · exact error rfl
    · exact (asAddress _).bind fun a => (text memory a).bind fun _ => (hargs _ _).bind fun _ =>
        mapError fun _ => rfl
  · split
    · exact error rfl
    · exact (asAddress _).bind fun a => (text memory a).bind fun _ => ok _
  · exact error rfl

end Plain

/-! ## Single steps -/

/-- Run an instruction from which control goes on to the next. -/
def step (m : Module) (call : Call) (temps : Temps) : Instr → Exec Temps
  | .assign dest cls op args => do
    let values ← orFault (args.mapM (eval m temps))
    let v ← perform cls op values
    return temps.assign dest v
  | .store cls value address => do
    let v ← orFault (eval m temps value)
    let a ← orFault do (← eval m temps address).asAddress
    changeMemory fun memory => memory.store cls v a
    return temps
  | .blit source target size => do
    let s ← orFault do (← eval m temps source).asAddress
    let t ← orFault do (← eval m temps target).asAddress
    changeMemory fun memory => memory.copy s t size
    return temps
  | .call dest func args => do
    let values ← orFault (args.mapM fun a => eval m temps a.2)
    keepResult m func temps (← call func values) dest
  | _ => pure temps

/-- How many instructions are run until control does not go on to the next. -/
def stretch : List Instr → Nat
  | [] => 0
  | i :: rest => if i.isJump then 1 else stretch rest + 1

/-- Code is left for a label of its last instruction that is run. -/
def Exit.Leaves (code : List Instr) : Exit → Prop
  | .goto l _ => ∃ k i, code[k]? = some i ∧ stretch code = k + 1 ∧ l ∈ i.targets
  | _ => True

theorem steps_cons (hi : i.isJump = false) : steps m call f temps (i :: code) =
    step m call temps i >>= fun temps => steps m call f temps code := by
  cases i with
  | jump | jumpIf | ret | halt => cases hi
  | label | assign | store | blit | call => simp only [steps, step, bind_assoc, pure_bind]

theorem stretch_cons (hi : i.isJump = false) : stretch (i :: code) = stretch code + 1 := by
  rw [stretch, hi]
  rfl

theorem Exit.Leaves.cons {e : Exit} (h : e.Leaves code) {i : Instr} (hi : i.isJump = false) :
    e.Leaves (i :: code) := by
  cases e with
  | goto l temps =>
    obtain ⟨k, j, hj, hstretch, hl⟩ := h
    exact ⟨k + 1, j, hj, by rw [stretch_cons hi, hstretch], hl⟩
  | _ => trivial

theorem steps_leaves : Ensures (steps m call f temps code) s fun e _ => e.Leaves code := by
  induction code generalizing temps s with
  | nil => exact .pure trivial
  | cons i rest ih =>
    by_cases hi : i.isJump = false
    · rw [steps_cons hi]
      exact (ensures_true _ _).bind fun _ _ _ => ih.mono fun _ _ he => he.cons hi
    cases i with
    | jump l => exact .pure ⟨0, _, rfl, rfl, List.mem_singleton_self l⟩
    | jumpIf cond t e =>
      refine (ensures_true _ _).bind fun c _ _ => .pure ⟨0, _, rfl, rfl, ?_⟩
      simp only [Instr.targets]
      split <;> simp
    | ret v =>
      cases v with
      | none => exact .pure trivial
      | some v => exact (ensures_true _ _).bind fun _ _ _ => .pure trivial
    | halt => exact .throw _
    | label | assign | store | blit | call => exact absurd rfl hi

section

variable {call : Call} (hplain : ∀ e : Fault, e.isPlain = true → P (.fault e))
  (hcall : ∀ name values, Stops (call name values) P)

theorem stops_allocate (size align : Nat) : Stops (allocate size align) P := by
  rintro s _ s' ⟨⟩

include hplain

theorem stops_orFault (h : Plain r) : Stops (orFault r) P := by
  unfold orFault
  cases r with
  | ok a => exact .pure a
  | error e => exact .throw (hplain e (h e rfl))

theorem stops_changeMemory (h : ∀ memory, Plain (g memory)) : Stops (changeMemory g) P := by
  intro s stop s' heq
  cases hg : g s.memory with
  | ok memory => simp [changeMemory, hg] at heq
  | error e =>
    simp only [changeMemory, hg, EStateM.Result.error.injEq] at heq
    rw [← heq.1]
    exact hplain e (h _ e hg)

theorem stops_pass (cls : Class) (v : Value) : Stops (pass m cls v) P := by
  unfold pass
  split
  · unfold copyAggregate
    split
    · exact .throw (hplain _ rfl)
    · exact (stops_allocate _ _).bind fun _ => (stops_orFault hplain (.asAddress v)).bind fun _ =>
        (stops_changeMemory hplain fun memory => .copy memory _ _ _).bind fun _ => .pure _
  · exact .pure _

theorem stops_perform (cls : Class) (op : Op) (values : List Value) : Stops (perform cls op values) P := by
  unfold perform
  split
  · exact (stops_orFault hplain ((Plain.first _ _).bind Plain.asAddress)).bind fun _ =>
      (stops_allocate _ _).bind fun _ => .pure _
  · exact Stops.get.bind fun _ => stops_orFault hplain (.apply _ _ _ _)

theorem stops_callForeign (name : String) (values : List Value) : Stops (callForeign name values) P :=
  Stops.get.bind fun _ => (stops_orFault hplain (.foreignText _ _ _)).bind fun _ =>
    ((Stops.modify _).bind fun _ => .pure _).bind fun _ => .pure _

theorem stops_keepResult (func : String) (result : Option Value) (dest : Option (String × Class)) :
    Stops (keepResult m func temps result dest) P := by
  unfold keepResult
  split
  · exact .pure _
  · split
    · exact .throw (hplain _ rfl)
    · exact (stops_pass hplain _ _).bind fun _ => .pure _

theorem stops_bindParams (params : List (Class × String)) (values : List Value) :
    Stops (bindParams m temps params values) P := by
  induction params generalizing temps values with
  | nil => exact .pure _
  | cons param params ih =>
    cases values with
    | nil => exact .pure _
    | cons v values => exact (stops_pass hplain _ _).bind fun _ => ih _

include hcall

/-- Code stops as what it calls, or with the `halt` that is the last of what is run. -/
theorem stops_steps
    (hhalt : ∀ k, code[k]? = some .halt → stretch code = k + 1 → P (.fault (.halted f.name))) :
    Stops (steps m call f temps code) P := by
  have heval : ∀ temps v, Stops (orFault (eval m temps v)) P := fun _ _ => stops_orFault hplain (.eval _ _ _)
  have haddress : ∀ temps v, Stops (orFault (eval m temps v >>= Value.asAddress)) P :=
    fun _ _ => stops_orFault hplain ((Plain.eval _ _ _).bind Plain.asAddress)
  induction code generalizing temps with
  | nil => exact .pure _
  | cons i rest ih =>
    have hrest : i.isJump = false → ∀ temps, Stops (steps m call f temps rest) P := fun hi temps =>
      ih fun k hk hstretch => hhalt (k + 1) hk (by rw [stretch_cons hi, hstretch])
    cases i with
    | label l => exact hrest rfl _
    | assign dest cls op args =>
      exact (stops_orFault hplain (.mapM fun _ => Plain.eval _ _ _)).bind fun _ =>
        (stops_perform hplain _ _ _).bind fun _ => hrest rfl _
    | store cls v a =>
      exact (heval _ _).bind fun _ => (haddress _ _).bind fun _ =>
        (stops_changeMemory hplain fun memory => .store memory _ _ _).bind fun _ => hrest rfl _
    | blit v a size =>
      exact (haddress _ _).bind fun _ => (haddress _ _).bind fun _ =>
        (stops_changeMemory hplain fun memory => .copy memory _ _ _).bind fun _ => hrest rfl _
    | call dest func args =>
      exact (stops_orFault hplain (.mapM fun _ => Plain.eval _ _ _)).bind fun values =>
        (hcall func values).bind fun _ => (stops_keepResult hplain _ _ _).bind fun _ => hrest rfl _
    | jump l => exact .pure _
    | jumpIf cond t e =>
      exact (stops_orFault hplain ((Plain.eval _ _ _).bind Plain.asInt)).bind fun _ => .pure _
    | ret v =>
      cases v with
      | none => exact .pure _
      | some v => exact (heval _ _).bind fun _ => .pure _
    | halt => exact .throw (hhalt 0 rfl rfl)

/-- An invariant of the budget that is left and the position, kept by jumps, tells what stops a run. -/
theorem stops_runFrom {I : Nat → Nat → Prop} (hout : ∀ n, I 0 n → P .outOfBudget)
    (hnext : ∀ budget n k i l next, I (budget + 1) n → f.body[n + k]? = some i →
      stretch (f.body.drop n) = k + 1 → l ∈ i.targets → f.body[next]? = some (.label l) →
      I budget next)
    (hend : ∀ budget n k, I budget n → f.body[n + k]? = some .halt →
      stretch (f.body.drop n) = k + 1 → P (.fault (.halted f.name)))
    (hn : I budget n) : Stops (runFrom m call f budget temps (f.body.drop n)) P := by
  induction budget generalizing temps n with
  | zero => exact .throw (hout n hn)
  | succ budget ih =>
    rw [runFrom]
    have hsteps : Stops (steps m call f temps (f.body.drop n)) P :=
      stops_steps hplain hcall fun k hk hstretch =>
        hend _ n k hn (by rwa [List.getElem?_drop] at hk) hstretch
    refine hsteps.seq (fun _ => steps_leaves) fun e he => ?_
    cases e with
    | ret v => exact .pure _
    | fellOff => exact .throw (hplain _ rfl)
    | goto l temps' =>
      obtain ⟨k, i, hi, hstretch, hl⟩ := he
      rw [List.getElem?_drop] at hi
      dsimp only
      split
      · exact .throw (hplain _ rfl)
      · next code hcode =>
        obtain ⟨before, rest, hbody, rfl⟩ := codeAt?_eq_some hcode
        have hlabel : f.body[before.length]? = some (.label l) := by simp [hbody]
        have hdrop : .label l :: rest = f.body.drop before.length := by rw [hbody, List.drop_left]
        rw [hdrop]
        exact ih (hnext budget n k i l before.length hn hi hstretch hl hlabel)

omit hcall

theorem stops_callAt
    (hfunctions : ∀ f ∈ m.functions, ∀ call : Call, (∀ name values, Stops (call name values) P) →
      ∀ temps, Stops (runFrom m call f budget temps f.body) P)
    (depth : Nat) (name : String) (values : List Value) :
    Stops (callAt m budget depth name values) P := by
  induction depth generalizing name values with
  | zero =>
    rw [callAt]
    split
    · exact stops_callForeign hplain name values
    · exact .throw (hplain _ rfl)
  | succ depth ih =>
    rw [callAt]
    split
    · exact stops_callForeign hplain name values
    · next f hfound =>
      dsimp only
      split
      · exact .throw (hplain _ rfl)
      · exact (stops_bindParams hplain _ _).bind fun temps =>
          hfunctions f (List.mem_of_find?_eq_some hfound) _ ih temps

end

end StructLang.Flat
