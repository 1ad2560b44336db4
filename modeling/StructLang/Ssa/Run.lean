import StructLang.Execution
import StructLang.Linkage
import StructLang.Printf
import StructLang.Ssa.Value
import StructLang.Text.Utf8

/-!
# Running SSA code

What a module prints and returns. Functions of the module nest at most `maxDepth` deep. Each invocation
passes through at most `budget` blocks, which only a module with a loop can use up; that end is kept
apart from the faults.
-/

namespace StructLang.Ssa

/-- What running code changes. -/
structure Machine where
  memory : Array Value
  output : String

/-- Code that reads and changes a machine. -/
abbrev Exec := Execution Fault Machine

def fault {α : Type} (f : Fault) : Exec α := throw (.fault f)

/-- Go on with a result or stop with its fault. -/
def orFault {α : Type} (r : Except Fault α) : Exec α :=
  match r with
  | .ok a => pure a
  | .error f => fault f

/-- The values of an invocation's registers. -/
abbrev Registers := List (Register × Value)

def Registers.assign : Registers → Register → Value → Registers
  | [], r, v => [(r, v)]
  | (r', v') :: rest, r, v =>
    if r' = r then (r, v) :: rest else (r', v') :: Registers.assign rest r v

/-- The zero values of field types, each found by a given function. -/
def zeroFields (zero : Ty → Except (Stop Fault) Value) : List Ty → Except (Stop Fault) (List Value)
  | [] => .ok []
  | ty :: rest => do
    let v ← zero ty
    return v :: (← zeroFields zero rest)

/-- The value of a type whose bits are all zero, down to a depth of nested structs. -/
def zeroValue (m : Module) : Nat → Ty → Except (Stop Fault) Value
  | _, .i1 | _, .i32 | _, .i64 => .ok (.int 0)
  | _, .f32 | _, .f64 => .ok (.float .zero)
  | _, .ptr | _, .void => .ok .null
  | depth, .struct name =>
    match m.struct? name with
    | none => .error (.fault (.unknownStruct name))
    | some s =>
      match depth with
      | 0 => .error .outOfBudget
      | depth + 1 => do return .aggregate (← zeroFields (zeroValue m depth) s.fields)

/-- The value of a type whose bits are all zero; structs nest no deeper than there are structs. -/
def zero (m : Module) (ty : Ty) : Exec Value :=
  match zeroValue m m.structs.length ty with
  | .ok v => pure v
  | .error stop => throw stop

def read (a : Address) : Exec Value := do
  match a.base with
  | .global name => fault (.loadFromConstant name)
  | .slot i =>
    match (← get).memory[i]? with
    | none => fault .danglingSlot
    | some v => orFault (v.get a.path)

def write (a : Address) (new : Value) : Exec Unit := do
  match a.base with
  | .global name => fault (.storeToConstant name)
  | .slot i =>
    match (← get).memory[i]? with
    | none => fault .danglingSlot
    | some v =>
      let v ← orFault (Value.set new a.path v)
      modify fun s => { s with memory := s.memory.setIfInBounds i v }

def allocate (initial : Value) : Exec Address := do
  let index := (← get).memory.size
  modify fun s => { s with memory := s.memory.push initial }
  return ⟨.slot index, []⟩

/-- Print a text; the result is its length in bytes. -/
def print (text : String) : Exec Int64 := do
  modify fun s => { s with output := s.output ++ text }
  return Int64.ofNat text.utf8ByteSize

/-- The text at an address. -/
def textAt (m : Module) : Value → Except Fault String
  | .ptr ⟨.global name, _⟩ =>
    match m.string? name with
    | some s => .ok s.value
    | none => .error (.unknownString name)
  | v => .error (.notAString v)

/-- An argument as a conversion takes it. -/
def printfArg (m : Module) : Value → Except Fault Printf.Arg
  | .int v => .ok (.int v)
  | .float v => .ok (.float v)
  | .ptr a => .text <$> textAt m (.ptr a)
  | v => .error (.unprintable v)

/-- What a foreign function prints. -/
def foreignText (m : Module) (name : String) (args : List Value) : Except Fault String :=
  match name with
  | "printf" =>
    match args with
    | [] => .error .printfWithoutFormat
    | fmt :: rest => do
      let fmt ← textAt m fmt
      let rest ← rest.mapM (printfArg m)
      (Printf.format fmt rest).mapError fun e => .badFormat e.message
  | "puts" =>
    match args with
    | [] => .error .putsWithoutText
    | s :: _ => do return (← textAt m s) ++ "\n"
  | other => .error (.noForeign other)

/-- Call a foreign function; it gives the number of bytes printed unless it is declared void. -/
def callForeign (m : Module) (name : String) (args : List Value) : Exec (Option Value) :=
  match m.foreign? name with
  | none => fault (.unknownFunction name)
  | some decl => do
    let count ← print (← orFault (foreignText m name args))
    return if decl.ret = .void then none else some (.int count)

def eval (m : Module) (args : List Value) (regs : Registers) : Operand → Exec Value
  | .register r =>
    match regs.lookup r with
    | some v => pure v
    | none => fault (.unset r)
  | .int v ty => pure (.int (wrap v ty))
  | .float v ty => pure (.float (round v ty))
  | .zero ty => zero m ty
  | .param i =>
    match args[i]? with
    | some v => pure v
    | none => fault .missingArgument
  | .global name => pure (.ptr ⟨.global name, []⟩)

/-- The address that an operand holds. -/
def evalAddress (m : Module) (args : List Value) (regs : Registers) (value : Operand) :
    Exec Address := do
  match ← eval m args regs value with
  | .ptr a => pure a
  | v => fault (.notAPointer v)

/-- How a function is called. -/
abbrev Call := String → List Value → Exec (Option Value)

def step (m : Module) (call : Call) (args : List Value) (regs : Registers) :
    Instr → Exec Registers
  | .alloca dest ty => do
    let initial ← zero m ty
    return regs.assign dest (.ptr (← allocate initial))
  | .load dest _ address => do
    let a ← evalAddress m args regs address
    return regs.assign dest (← read a)
  | .store _ value address => do
    let v ← eval m args regs value
    let a ← evalAddress m args regs address
    write a v
    return regs
  | .field dest _ base index => do
    let a ← evalAddress m args regs base
    return regs.assign dest (.ptr ⟨a.base, a.path ++ [index]⟩)
  | .arith dest op ty left right => do
    let l ← eval m args regs left
    let r ← eval m args regs right
    return regs.assign dest (← orFault (arith op ty l r))
  | .compare dest pred _ left right => do
    let l ← eval m args regs left
    let r ← eval m args regs right
    return regs.assign dest (← orFault (compare pred l r))
  | .cast dest op value _ target => do
    let v ← eval m args regs value
    return regs.assign dest (← orFault (convert op target v))
  | .call dest func _ _ operands => do
    let values ← operands.mapM fun p => eval m args regs p.2
    let result ← call func values
    return match dest, result with
      | some r, some v => regs.assign r v
      | _, _ => regs

def steps (m : Module) (call : Call) (args : List Value) :
    Registers → List Instr → Exec Registers
  | regs, [] => pure regs
  | regs, i :: rest => do
    let regs ← step m call args regs i
    steps m call args regs rest

/-- How a block is left. -/
inductive Exit where
  | ret (value : Option Value)
  | goto (block : Nat)

def exit (m : Module) (f : Function) (args : List Value) (regs : Registers) :
    Option Terminator → Exec Exit
  | none => fault .unterminated
  | some (.ret none) => pure (.ret none)
  | some (.ret (some (_, v))) => do return .ret (some (← eval m args regs v))
  | some (.jump target) => pure (.goto target)
  | some (.branch cond thenTarget elseTarget) => do
    match ← eval m args regs cond with
    | .int c => return .goto (if c = 0 then elseTarget else thenTarget)
    | v => fault (.branchOn v)
  | some .unreachable => fault (.unreachable f.name)

/-- Run a function from a block on. -/
def runBlocks (m : Module) (call : Call) (f : Function) (args : List Value) :
    Nat → Registers → Nat → Exec (Option Value)
  | 0, _, _ => throw .outOfBudget
  | budget + 1, regs, block =>
    match f.blocks[block]? with
    | none => fault .missingBlock
    | some b => do
      let regs ← steps m call args regs b.instrs
      match ← exit m f args regs b.terminator with
      | .ret v => return v
      | .goto next => runBlocks m call f args budget regs next

/-- Call a function by name while at most `depth` more invocations may begin. -/
def callAt (m : Module) (budget : Nat) : Nat → Call
  | depth, name, args =>
    match m.function? name with
    | none => callForeign m name args
    | some f =>
      match depth with
      | 0 => fault .callDepth
      | depth + 1 => runBlocks m (callAt m budget depth) f args budget [] 0

/-- Run the entry point, with the machine in which the run ends. -/
def Module.execute (m : Module) (budget : Nat) :
    EStateM.Result (Stop Fault) Machine (Option Value) :=
  (callAt m budget maxDepth entryPoint []).run ⟨#[], ""⟩

/-- Run the entry point; a result that is no integer counts as zero. -/
def Module.run (m : Module) (budget : Nat) : Except (Stop Fault) RunResult :=
  match m.execute budget with
  | .ok (some (.int v)) s => .ok ⟨v, s.output⟩
  | .ok _ s => .ok ⟨0, s.output⟩
  | .error stop _ => .error stop

end StructLang.Ssa
