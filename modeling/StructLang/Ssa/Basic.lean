import StructLang.Number.Binary64

/-!
# SSA modules

Functions as blocks of typed instructions over registers that are assigned once. Variables live in
stack slots, and a field is addressed by its position in the struct.
-/

namespace StructLang.Ssa

/-- Types of registers, slots and parameters. -/
inductive Ty where
  | void
  | i1
  | i32
  | i64
  | f32
  | f64
  | ptr
  | struct (name : String)
deriving DecidableEq, Inhabited

namespace Ty

/-- The type in LLVM assembly and in messages. -/
def name : Ty → String
  | void => "void"
  | i1 => "i1"
  | i32 => "i32"
  | i64 => "i64"
  | f32 => "float"
  | f64 => "double"
  | ptr => "ptr"
  | struct name => "%" ++ name

def isInt : Ty → Bool
  | i1 | i32 | i64 => true
  | _ => false

def isFloat : Ty → Bool
  | f32 | f64 => true
  | _ => false

/-- Width in bits; none for void and structs. -/
def bits : Ty → Nat
  | i1 => 1
  | i32 | f32 => 32
  | i64 | f64 | ptr => 64
  | void | struct _ => 0

end Ty

abbrev Register := Nat

/-- A register in LLVM assembly and in messages. -/
def registerName (r : Register) : String := s!"%r{r}"

/-- What an instruction can take. -/
inductive Operand where
  | register (r : Register)
  | int (v : Int64) (ty : Ty)
  | float (v : Binary64) (ty : Ty)
  /-- The value of a type whose bits are all zero. -/
  | zero (ty : Ty)
  /-- A parameter by position. -/
  | param (index : Nat)
  /-- The address of a string constant. -/
  | global (name : String)
deriving DecidableEq, Inhabited

inductive ArithOp where
  | add | sub | mul | sdiv | srem | fadd | fsub | fmul | fdiv | and | or | xor | shl | ashr
deriving DecidableEq, Inhabited

namespace ArithOp

/-- Operators on floats. -/
def isFloat : ArithOp → Bool
  | fadd | fsub | fmul | fdiv => true
  | _ => false

/-- The operator in LLVM assembly and in messages. -/
def name : ArithOp → String
  | add => "add"
  | sub => "sub"
  | mul => "mul"
  | sdiv => "sdiv"
  | srem => "srem"
  | fadd => "fadd"
  | fsub => "fsub"
  | fmul => "fmul"
  | fdiv => "fdiv"
  | and => "and"
  | or => "or"
  | xor => "xor"
  | shl => "shl"
  | ashr => "ashr"

end ArithOp

/-- Comparisons: signed of integers, ordered of floats. -/
inductive Predicate where
  | eq | ne | slt | sle | sgt | sge | oeq | one | olt | ole | ogt | oge
deriving DecidableEq, Inhabited

namespace Predicate

def isFloat : Predicate → Bool
  | oeq | one | olt | ole | ogt | oge => true
  | _ => false

/-- The comparison in LLVM assembly and in messages. -/
def name : Predicate → String
  | eq => "icmp eq"
  | ne => "icmp ne"
  | slt => "icmp slt"
  | sle => "icmp sle"
  | sgt => "icmp sgt"
  | sge => "icmp sge"
  | oeq => "fcmp oeq"
  | one => "fcmp one"
  | olt => "fcmp olt"
  | ole => "fcmp ole"
  | ogt => "fcmp ogt"
  | oge => "fcmp oge"

end Predicate

inductive CastOp where
  | sext | zext | trunc | sitofp | fptosi | fpext | fptrunc
deriving DecidableEq, Inhabited

/-- The conversion in LLVM assembly and in messages. -/
def CastOp.name : CastOp → String
  | sext => "sext"
  | zext => "zext"
  | trunc => "trunc"
  | sitofp => "sitofp"
  | fptosi => "fptosi"
  | fpext => "fpext"
  | fptrunc => "fptrunc"

/-- Instructions inside a block. -/
inductive Instr where
  /-- A fresh slot. -/
  | alloca (dest : Register) (ty : Ty)
  | load (dest : Register) (ty : Ty) (address : Operand)
  | store (ty : Ty) (value address : Operand)
  | arith (dest : Register) (op : ArithOp) (ty : Ty) (left right : Operand)
  | compare (dest : Register) (pred : Predicate) (ty : Ty) (left right : Operand)
  | cast (dest : Register) (op : CastOp) (value : Operand) (source target : Ty)
  /-- The address of a field of the struct at an address. -/
  | field (dest : Register) (struct : String) (base : Operand) (index : Nat)
  /-- The parameter types are those of the declaration that the call means. -/
  | call (dest : Option Register) (func : String) (ret : Ty) (params : List Ty)
      (args : List (Ty × Operand))
deriving DecidableEq, Inhabited

/-- The register that an instruction assigns. -/
def Instr.dest? : Instr → Option Register
  | alloca d .. | load d .. | arith d .. | compare d .. | cast d .. | field d .. => some d
  | call d .. => d
  | store .. => none

/-- What ends a block. Blocks are named by position. -/
inductive Terminator where
  | ret (value : Option (Ty × Operand))
  | jump (target : Nat)
  | branch (cond : Operand) (thenTarget elseTarget : Nat)
  /-- Control never gets here. -/
  | unreachable
deriving DecidableEq, Inhabited

/-- The blocks to which control can go. -/
def Terminator.successors : Terminator → List Nat
  | jump t => [t]
  | branch _ t e => [t, e]
  | ret _ | unreachable => []

/-- A run of instructions with one entry and one exit. -/
structure Block where
  /-- The position that the block believes to have. -/
  id : Nat
  label : String
  instrs : List Instr
  terminator : Option Terminator
deriving DecidableEq, Inhabited

/-- A function; its first block is the entry. -/
structure Function where
  name : String
  params : List (String × Ty)
  ret : Ty
  blocks : List Block
deriving DecidableEq, Inhabited

/-- A named struct type. -/
structure Struct where
  name : String
  fields : List Ty
deriving DecidableEq, Inhabited

/-- A string constant, which ends in a zero byte in memory. -/
structure Constant where
  name : String
  value : String
deriving DecidableEq, Inhabited

/-- The declaration of a function that is defined elsewhere. -/
structure Foreign where
  name : String
  params : List Ty
  ret : Ty
deriving DecidableEq, Inhabited

structure Module where
  name : String
  structs : List Struct
  strings : List Constant
  foreigns : List Foreign
  functions : List Function
deriving DecidableEq, Inhabited

namespace Module

/-- The first struct with this name. -/
def struct? (m : Module) (name : String) : Option Struct :=
  m.structs.find? fun s => s.name == name

/-- The first string constant with this name. -/
def string? (m : Module) (name : String) : Option Constant :=
  m.strings.find? fun s => s.name == name

/-- The first foreign declaration with this name. -/
def foreign? (m : Module) (name : String) : Option Foreign :=
  m.foreigns.find? fun f => f.name == name

/-- The first function with this name. -/
def function? (m : Module) (name : String) : Option Function :=
  m.functions.find? fun f => f.name == name

/-- Parameter and result types under a name; a definition comes before a declaration. -/
def signature? (m : Module) (name : String) : Option (List Ty × Ty) :=
  match m.function? name with
  | some f => some (f.params.map Prod.snd, f.ret)
  | none => (m.foreign? name).map fun f => (f.params, f.ret)

end Module

end StructLang.Ssa
