import StructLang.Execution
import StructLang.Flat.Memory
import StructLang.Linkage
import StructLang.Printf

/-!
# Running flat code

What a module prints and returns. Functions of the module nest at most `maxDepth` deep. Each invocation
jumps at most `budget` times, which only a module with a loop can use up; that end is kept apart from
the faults.
-/

namespace StructLang.Flat

open scoped CoreNumbers

/-- What running code changes. -/
structure Machine where
  memory : Memory
  output : String

/-- Code that reads and changes a machine. -/
abbrev Exec := Execution Fault Machine

def fault {α : Type} (f : Fault) : Exec α := throw (.fault f)

/-- Go on with a result or stop with its fault. -/
def orFault {α : Type} (r : Except Fault α) : Exec α :=
  match r with
  | .ok a => pure a
  | .error f => fault f

/-- Change memory or stop with the fault of doing so. -/
def changeMemory (change : Memory → Except Fault Memory) : Exec Unit
  | ⟨memory, output⟩ =>
    match change memory with
    | .ok changed => .ok () ⟨changed, output⟩
    | .error f => .error (.fault f) ⟨memory, output⟩

def allocate (size align : Nat) : Exec Nat
  | ⟨memory, output⟩ =>
    let (address, memory) := memory.allocate size align
    .ok address ⟨memory, output⟩

/-- A fresh copy of the struct at an address. -/
def copyAggregate (m : Module) (name : String) (v : Value) : Exec Value :=
  match m.type? name with
  | none => fault (.unknownType name)
  | some t => do
    let target ← allocate t.size 8
    let source ← orFault v.asAddress
    changeMemory fun memory => memory.copy source target t.size
    return .ofAddress target

/-- A value as a class passes it: structs are copied. -/
def pass (m : Module) (cls : Class) (v : Value) : Exec Value :=
  match cls with
  | .aggregate name => copyAggregate m name v
  | _ => pure v

/-- The values of an invocation's temporaries. -/
abbrev Temps := List (String × Value)

def Temps.assign : Temps → String → Value → Temps
  | [], name, v => [(name, v)]
  | (n, w) :: rest, name, v =>
    if n = name then (name, v) :: rest else (n, w) :: Temps.assign rest name v

/-- The bytes of a module's data in order, each text with a zero byte. -/
def Module.dataBytes (m : Module) : List UInt8 :=
  m.data.flatMap fun d => Utf8.encode d.value ++ [0]

/-- The names of data with their addresses, when the next datum stands at an address. -/
def dataAddresses : Nat → List Datum → List (String × Nat)
  | _, [] => []
  | address, d :: rest =>
    (d.name, address) :: dataAddresses (address + d.value.utf8ByteSize + 1) rest

/-- The address of the last datum with this name. -/
def Module.address? (m : Module) (name : String) : Option Nat :=
  (dataAddresses dataBase m.data).reverse.lookup name

def eval (m : Module) (temps : Temps) : Operand → Except Fault Value
  | .temp name =>
    match temps.lookup name with
    | some v => .ok v
    | none => .error (.unset name)
  | .int v => .ok (.int v)
  | .single v => .ok (.single v)
  | .double v => .ok (.double v)
  | .global name =>
    match m.address? name with
    | some address => .ok (.ofAddress address)
    | none => .error (.unknownGlobal name)

/-! ## Operations -/

def intCompare (cond : Cond) (a b : Int64) : Except Fault Bool :=
  match cond with
  | .eq => .ok (a == b)
  | .ne => .ok (a != b)
  | .slt => .ok (a < b)
  | .sle => .ok (a ≤ b)
  | .sgt => .ok (b < a)
  | .sge => .ok (b ≤ a)
  | .lt | .le | .gt | .ge => .error (.compareIntegers cond)

def floatCompare (cond : Cond) (a b : Binary64) : Except Fault Bool :=
  match cond with
  | .eq => .ok (a.eq b)
  | .ne => .ok (!a.eq b)
  | .lt => .ok (a.lt b)
  | .le => .ok (a.le b)
  | .gt => .ok (b.lt a)
  | .ge => .ok (b.le a)
  | .slt | .sle | .sgt | .sge => .error (.compareFloats cond)

def Value.ofBool (b : Bool) : Value := .int (if b then 1 else 0)

/-- A comparison of values of a class. -/
def compare (cond : Cond) (cls : Class) (l r : Value) : Except Fault Value :=
  if cls.isFloat then do
    let a ← l.asFloat
    let b ← r.asFloat
    return .ofBool (← floatCompare cond a b)
  else do
    let a ← l.asInt
    let b ← r.asInt
    return .ofBool (← intCompare cond (fit a cls) (fit b cls))

/-- How far a shift goes: the amount modulo the width of the class. -/
def shiftAmount (v : Int64) (cls : Class) : Int64 :=
  Int64.ofNat (v.toUInt64.toNat % (if cls = .word then 32 else 64))

/-- Arithmetic on integers, before it is brought into the range of the class. -/
def intArith (op : Op) (cls : Class) (a b : Int64) : Except Fault Int64 :=
  match op with
  | .add => .ok (a + b)
  | .sub => .ok (a - b)
  | .mul => .ok (a * b)
  | .div => if b = 0 then .error .divisionByZero else .ok (a / b)
  | .rem => if b = 0 then .error .divisionByZero else .ok (a % b)
  | .and => .ok (a &&& b)
  | .or => .ok (a ||| b)
  | .xor => .ok (a ^^^ b)
  | .shl => .ok (a <<< shiftAmount b cls)
  | .sar => .ok (a >>> shiftAmount b cls)
  | op => .error (.onIntegers op)

/-- Arithmetic on floats, before it is brought into the precision of the class. -/
def floatArith (op : Op) (a b : Binary64) : Except Fault Binary64 :=
  match op with
  | .add => .ok (a.add b)
  | .sub => .ok (a.sub b)
  | .mul => .ok (a.mul b)
  | .div => .ok (a.div b)
  | op => .error (.onFloats op)

def arith (op : Op) (cls : Class) (l r : Value) : Except Fault Value :=
  if cls.isFloat then do
    let a ← l.asFloat
    let b ← r.asFloat
    return .ofFloat (← floatArith op a b) cls
  else do
    let a ← l.asInt
    let b ← r.asInt
    return .int (fit (← intArith op cls (fit a cls) (fit b cls)) cls)

def first (op : Op) : List Value → Except Fault Value
  | v :: _ => .ok v
  | [] => .error (.missingOperand op)

def both (op : Op) : List Value → Except Fault (Value × Value)
  | l :: r :: _ => .ok (l, r)
  | _ => .error (.missingOperand op)

/-- A negation in a class. -/
def negate (cls : Class) : Value → Except Fault Value
  | .int v => .ok (.int (fit (-v) cls))
  | v => do return .ofFloat (← v.asFloat).neg cls

/-- A copy in a class: integers are brought into its range. -/
def copyOf (cls : Class) : Value → Value
  | .int v => .int (fit v cls)
  | v => v

/-- The value of an operation that leaves memory as it is; only `alloc` does not. -/
def apply (memory : Memory) (cls : Class) (op : Op) (args : List Value) : Except Fault Value :=
  match op with
  | .load source => do memory.load source (← (← first op args).asAddress)
  | .copy => do return copyOf cls (← first op args)
  | .neg => do negate cls (← first op args)
  | .compare cond source => do
    let (l, r) ← both op args
    compare cond source l r
  | .extsw => do return .int (← (← first op args).asInt).toInt32.toInt64
  | .extuw => do return .int (Int64.ofNat ((← (← first op args).asInt).toUInt64.toNat % 2 ^ (32 : Nat)))
  | .exts => do return .double (← (← first op args).asFloat)
  | .truncd => do return .single (← (← first op args).asFloat).toBinary32
  | .stosi | .dtosi => do return .int (fit (← (← first op args).asFloat).toInt64 cls)
  | .swtof => do
    let v ← (← first op args).asInt
    return .ofFloat (.ofInt v.toInt32.toInt) cls
  | .sltof => do
    let v ← (← first op args).asInt
    return .ofFloat (.ofInt v.toInt) cls
  | op => do
    let (l, r) ← both op args
    arith op cls l r

/-- The value of an operation. -/
def perform (cls : Class) (op : Op) (args : List Value) : Exec Value :=
  match op with
  | .alloc align => do
    let size ← orFault do (← first op args).asAddress
    return .ofAddress (← allocate size align)
  | op => do orFault (apply (← get).memory cls op args)

/-! ## Foreign functions -/

/-- Print a text; the result is its length in bytes. -/
def print (text : String) : Exec Value := do
  modify fun s => { s with output := s.output ++ text }
  return .int (Int64.ofNat text.utf8ByteSize)

/-- The pieces of a format after its percent signs, without the empty ones. -/
def pieces (fmt : String) : List (List Char) :=
  ((fmt.toList.splitOn '%').drop 1).filter fun piece => !piece.isEmpty

/-- Whether a piece of a format asks for a text. -/
def asksForText (piece : List Char) : Bool := (piece.dropWhile (· = 'l')).head? = some 's'

/-- An argument as a conversion takes it: the address of a text where one is asked for. -/
def printfArg (memory : Memory) (wantsText : Bool) : Value → Except Fault Printf.Arg
  | .int v => if wantsText then .text <$> memory.text v.toUInt64.toNat else .ok (.int v)
  | .single v => .ok (.float v.toBinary64)
  | .double v => .ok (.float v)

/-- The arguments of a format; each piece goes with one argument. -/
def printfArgs (memory : Memory) : List (List Char) → List Value → Except Fault (List Printf.Arg)
  | _, [] => .ok []
  | ps, v :: rest => do
    let arg ← printfArg memory ((ps.head?.map asksForText).getD false) v
    return arg :: (← printfArgs memory ps.tail rest)

/-- What a foreign function prints. -/
def foreignText (memory : Memory) (name : String) (args : List Value) : Except Fault String :=
  match name with
  | "printf" =>
    match args with
    | [] => .error .printfWithoutFormat
    | fmt :: rest => do
      let fmt ← memory.text (← fmt.asAddress)
      let rest ← printfArgs memory (pieces fmt) rest
      (Printf.format fmt rest).mapError fun e => .badFormat e.message
  | "puts" =>
    match args with
    | [] => .error .putsWithoutText
    | s :: _ => do return (← memory.text (← s.asAddress)) ++ "\n"
  | other => .error (.noForeign other)

/-- Call a foreign function; it gives the number of bytes printed. -/
def callForeign (name : String) (args : List Value) : Exec (Option Value) := do
  let text ← orFault (foreignText (← get).memory name args)
  return some (← print text)

/-! ## Control -/

/-- How a function is called. -/
abbrev Call := String → List Value → Exec (Option Value)

/-- How a run of instructions is left. -/
inductive Exit where
  | ret (value : Option Value)
  | goto (label : String) (temps : Temps)
  /-- There are no more instructions. -/
  | fellOff

/-- Keep the result of a call. -/
def keepResult (m : Module) (func : String) (temps : Temps) (result : Option Value) :
    Option (String × Class) → Exec Temps
  | none => pure temps
  | some (dest, cls) =>
    match result with
    | none => fault (.noResult func)
    | some v => do return temps.assign dest (← pass m cls v)

/-- Run instructions up to the first one after which control does not go on to the next. -/
def steps (m : Module) (call : Call) (f : Function) : Temps → List Instr → Exec Exit
  | _, [] => pure .fellOff
  | temps, .label _ :: rest => steps m call f temps rest
  | temps, .assign dest cls op args :: rest => do
    let values ← orFault (args.mapM (eval m temps))
    let v ← perform cls op values
    steps m call f (temps.assign dest v) rest
  | temps, .store cls value address :: rest => do
    let v ← orFault (eval m temps value)
    let a ← orFault do (← eval m temps address).asAddress
    changeMemory fun memory => memory.store cls v a
    steps m call f temps rest
  | temps, .blit source target size :: rest => do
    let s ← orFault do (← eval m temps source).asAddress
    let t ← orFault do (← eval m temps target).asAddress
    changeMemory fun memory => memory.copy s t size
    steps m call f temps rest
  | temps, .call dest func args :: rest => do
    let values ← orFault (args.mapM fun a => eval m temps a.2)
    let result ← call func values
    let temps ← keepResult m func temps result dest
    steps m call f temps rest
  | temps, .jump label :: _ => pure (.goto label temps)
  | temps, .jumpIf cond thenLabel elseLabel :: _ => do
    let c ← orFault do (← eval m temps cond).asInt
    return .goto (if c = 0 then elseLabel else thenLabel) temps
  | _, .ret none :: _ => pure (.ret none)
  | temps, .ret (some v) :: _ => do return .ret (some (← orFault (eval m temps v)))
  | _, .halt :: _ => fault (.halted f.name)

/-- The code from the last label with this name on. -/
def codeAt? (name : String) : List Instr → Option (List Instr)
  | [] => none
  | i :: rest =>
    match codeAt? name rest with
    | some code => some code
    | none => if i = .label name then some (i :: rest) else none

/-- Run a function from somewhere in its body on. -/
def runFrom (m : Module) (call : Call) (f : Function) :
    Nat → Temps → List Instr → Exec (Option Value)
  | 0, _, _ => throw .outOfBudget
  | budget + 1, temps, code => do
    match ← steps m call f temps code with
    | .ret v => return v
    | .fellOff => fault (.fellOff f.name)
    | .goto label temps =>
      match codeAt? label f.body with
      | none => fault (.unknownLabel label)
      | some code => runFrom m call f budget temps code

/-- Bind arguments to parameters in order. -/
def bindParams (m : Module) : Temps → List (Class × String) → List Value → Exec Temps
  | temps, (cls, name) :: params, v :: args => do
    let v ← pass m cls v
    bindParams m (temps.assign name v) params args
  | temps, _, _ => pure temps

/-- Call a function by name while at most `depth` more invocations may begin. -/
def callAt (m : Module) (budget : Nat) : Nat → Call
  | depth, name, args =>
    match m.function? name with
    | none => callForeign name args
    | some f =>
      match depth with
      | 0 => fault .callDepth
      | depth + 1 =>
        if args.length ≠ f.params.length then fault (.argumentCount f.name args.length)
        else do
          let temps ← bindParams m [] f.params args
          runFrom m (callAt m budget depth) f budget temps f.body

/-- Run the entry point, with the machine in which the run ends. -/
def Module.execute (m : Module) (budget : Nat) :
    EStateM.Result (Stop Fault) Machine (Option Value) :=
  (callAt m budget maxDepth entryPoint []).run ⟨⟨m.dataBytes.toArray, #[]⟩, ""⟩

/-- Run the entry point; a result that is no integer counts as zero. -/
def Module.run (m : Module) (budget : Nat) : Except (Stop Fault) RunResult :=
  match m.execute budget with
  | .ok (some (.int v)) s => .ok ⟨v, s.output⟩
  | .ok _ s => .ok ⟨0, s.output⟩
  | .error stop _ => .error stop

end StructLang.Flat
