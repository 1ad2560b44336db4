import StructLang.Number.Binary64

/-!
# Flat modules

Functions as one stream of instructions with labels in it, over named temporaries and bytes in memory.
The shape is that of QBE's intermediate language.
-/

namespace StructLang.Flat

/-- Classes of temporaries, and structs as functions pass them. -/
inductive Class where
  | word
  | long
  | single
  | double
  /-- A struct in a signature or a call; a temporary holds its address. -/
  | aggregate (name : String)
deriving DecidableEq, Inhabited

namespace Class

/-- The class in assembly and in messages. -/
def name : Class → String
  | word => "w"
  | long => "l"
  | single => "s"
  | double => "d"
  | aggregate name => ":" ++ name

def isFloat : Class → Bool
  | single | double => true
  | _ => false

end Class

/-- What an instruction can take. -/
inductive Operand where
  | temp (name : String)
  | int (v : Int64)
  | single (v : Binary32)
  | double (v : Binary64)
  /-- The address of a datum. -/
  | global (name : String)
deriving DecidableEq, Inhabited

/-- Comparisons: of equality, signed of integers, and of floats. -/
inductive Cond where
  | eq | ne | slt | sle | sgt | sge | lt | le | gt | ge
deriving DecidableEq, Inhabited

/-- The comparison in assembly and in messages. -/
def Cond.name : Cond → String
  | eq => "eq"
  | ne => "ne"
  | slt => "slt"
  | sle => "sle"
  | sgt => "sgt"
  | sge => "sge"
  | lt => "lt"
  | le => "le"
  | gt => "gt"
  | ge => "ge"

/-- Operations that give a value. -/
inductive Op where
  | add | sub | mul | div | rem | and | or | xor | shl | sar | neg | copy
  /-- Stack space with an alignment. -/
  | alloc (align : Nat)
  | load (cls : Class)
  /-- A comparison of operands of a class, which gives zero or one. -/
  | compare (cond : Cond) (cls : Class)
  | extsw | extuw | exts | truncd | stosi | dtosi | swtof | sltof
deriving DecidableEq, Inhabited

/-- The operation in assembly and in messages. -/
def Op.name : Op → String
  | add => "add"
  | sub => "sub"
  | mul => "mul"
  | div => "div"
  | rem => "rem"
  | and => "and"
  | or => "or"
  | xor => "xor"
  | shl => "shl"
  | sar => "sar"
  | neg => "neg"
  | copy => "copy"
  | alloc align => s!"alloc{align}"
  | load cls => s!"load{cls.name}"
  | compare cond cls => s!"c{cond.name}{cls.name}"
  | extsw => "extsw"
  | extuw => "extuw"
  | exts => "exts"
  | truncd => "truncd"
  | stosi => "stosi"
  | dtosi => "dtosi"
  | swtof => "swtof"
  | sltof => "sltof"

/-- Instructions of a body. -/
inductive Instr where
  | label (name : String)
  | assign (dest : String) (cls : Class) (op : Op) (args : List Operand)
  | store (cls : Class) (value address : Operand)
  /-- A copy of bytes. -/
  | blit (source target : Operand) (size : Nat)
  | call (dest : Option (String × Class)) (func : String) (args : List (Class × Operand))
  | jump (label : String)
  | jumpIf (cond : Operand) (thenLabel elseLabel : String)
  | ret (value : Option Operand)
  /-- Control never gets here. -/
  | halt
deriving DecidableEq, Inhabited

/-- Whether control never goes on to the next instruction. -/
def Instr.isJump : Instr → Bool
  | jump _ | jumpIf .. | ret _ | halt => true
  | _ => false

/-- The size and alignment of a struct. -/
structure TypeDef where
  name : String
  align : Nat
  size : Nat
deriving DecidableEq, Inhabited

/-- A text in memory, which ends in a zero byte. -/
structure Datum where
  name : String
  value : String
deriving DecidableEq, Inhabited

structure Function where
  name : String
  isExported : Bool
  params : List (Class × String)
  ret : Option Class
  body : List Instr
deriving DecidableEq, Inhabited

structure Module where
  types : List TypeDef
  data : List Datum
  functions : List Function
deriving DecidableEq, Inhabited

namespace Module

/-- The first struct with this name. -/
def type? (m : Module) (name : String) : Option TypeDef :=
  m.types.find? fun t => t.name == name

/-- The first function with this name. -/
def function? (m : Module) (name : String) : Option Function :=
  m.functions.find? fun f => f.name == name

end Module

end StructLang.Flat
