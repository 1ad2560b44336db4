import StructLang.Number.Binary64
import StructLang.Text.Span
import StructLang.Tree.Ty

/-!
# Syntax trees

Expressions, statements, blocks and the items of a program. Every expression, block and variable
declaration carries a node number; later stages keep what they find out about a node in tables under
that number.
-/

namespace StructLang

/-- Number and place of a node. -/
structure Node where
  id : Nat
  span : Span
deriving DecidableEq, Inhabited

/-- Operators before their operand. -/
inductive UnaryOp where
  | neg | not | bitNot
deriving DecidableEq, Inhabited

def UnaryOp.spelling : UnaryOp → String
  | neg => "-"
  | not => "!"
  | bitNot => "~"

/-- Operators between their operands. -/
inductive BinaryOp where
  | add | sub | mul | div | mod | eq | ne | lt | le | gt | ge | bitAnd | bitOr | bitXor | shl | shr
deriving DecidableEq, Inhabited

namespace BinaryOp

def spelling : BinaryOp → String
  | add => "+"
  | sub => "-"
  | mul => "*"
  | div => "/"
  | mod => "%"
  | eq => "=="
  | ne => "!="
  | lt => "<"
  | le => "<="
  | gt => ">"
  | ge => ">="
  | bitAnd => "&"
  | bitOr => "|"
  | bitXor => "^"
  | shl => "<<"
  | shr => ">>"

/-- Equality and its negation. -/
def isEquality : BinaryOp → Bool
  | eq | ne => true
  | _ => false

def isOrdering : BinaryOp → Bool
  | lt | le | gt | ge => true
  | _ => false

/-- Operators whose result is a truth value. -/
def isComparison (op : BinaryOp) : Bool := op.isEquality || op.isOrdering

/-- Operators on the bits of integers, shifts included. -/
def isBitwise : BinaryOp → Bool
  | bitAnd | bitOr | bitXor | shl | shr => true
  | _ => false

end BinaryOp

/-- Expressions. A method call is a call whose first argument is the receiver. -/
inductive Expr where
  | integer (node : Node) (value : Nat) (long : Bool)
  | float (node : Node) (value : Binary64) (single : Bool)
  | bool (node : Node) (value : Bool)
  | text (node : Node) (value : String)
  | var (node : Node) (name : String)
  | unary (node : Node) (op : UnaryOp) (operand : Expr)
  | binary (node : Node) (op : BinaryOp) (left right : Expr)
  | cast (node : Node) (operand : Expr) (target : Ty)
  | call (node : Node) (name : String) (args : List Expr)
  | construct (node : Node) (name : String) (args : List Expr)
  | access (node : Node) (object : Expr) (member : String)
deriving Inhabited

namespace Expr

def node : Expr → Node
  | integer n .. | float n .. | bool n .. | text n .. | var n .. | unary n .. | binary n ..
  | cast n .. | call n .. | construct n .. | access n .. => n

def id (e : Expr) : Nat := e.node.id

def span (e : Expr) : Span := e.node.span

end Expr

/-- The declaration of a variable. -/
structure VarDecl where
  node : Node
  name : String
  annotation : Option Ty
  isMutable : Bool
  init : Option Expr
deriving Inhabited

mutual

inductive Stmt where
  | declare (decl : VarDecl)
  | assign (span : Span) (name : String) (value : Expr)
  | branch (span : Span) (cond : Expr) (thenBlock : Block) (elseBlock : Option Block)
  | ret (span : Span) (value : Option Expr)
  | expr (value : Expr)

/-- A braced sequence of statements. -/
inductive Block where
  | mk (node : Node) (stmts : List Stmt)

end

namespace Block

def node : Block → Node
  | mk n _ => n

def stmts : Block → List Stmt
  | mk _ s => s

def id (b : Block) : Nat := b.node.id

instance : Inhabited Block := ⟨mk default []⟩

end Block

def Stmt.span : Stmt → Span
  | declare d => d.node.span
  | assign s .. | branch s .. | ret s _ => s
  | expr e => e.span

/-- A name with its type: a field of a struct or a parameter of a function. -/
structure TypedName where
  name : String
  ty : Ty
  span : Span
deriving DecidableEq, Inhabited

/-- The import of a module by its dotted name. -/
structure Import where
  path : List String
  span : Span
deriving DecidableEq, Inhabited

/-- The dotted name of an imported module. -/
def Import.dotted (i : Import) : String := ".".intercalate i.path

/-- The definition of a struct. -/
structure StructDef where
  name : String
  fields : List TypedName
  span : Span
deriving DecidableEq, Inhabited

/-- Position and description of the first field with this name. -/
def StructDef.field? (s : StructDef) (name : String) : Option (Nat × TypedName) :=
  (s.fields.zipIdx.find? fun p => p.1.name == name).map fun p => (p.2, p.1)

/-- The declaration of a function that is defined elsewhere. -/
structure ForeignDecl where
  name : String
  params : List TypedName
  ret : Ty
  span : Span
deriving DecidableEq, Inhabited

/-- What callers see of a function; with a receiver it extends a struct. -/
structure FnHeader where
  name : String
  /-- Dotted name of the module, empty for the entry file. -/
  module : String
  receiver : Option Ty
  params : List TypedName
  ret : Ty
  span : Span
deriving DecidableEq, Inhabited

/-- Parameter types as a caller sees them: the receiver first. -/
def FnHeader.signature (f : FnHeader) : List Ty := f.receiver.toList ++ f.params.map TypedName.ty

structure FnDef extends FnHeader where
  body : Block
deriving Inhabited

inductive Item where
  | importing (decl : Import)
  | struct (decl : StructDef)
  | fn (decl : FnDef)
  | foreign (decl : ForeignDecl)
deriving Inhabited

/-- A program is its items in order. -/
structure Program where
  items : List Item
deriving Inhabited

namespace Program

def structs (p : Program) : List StructDef :=
  p.items.filterMap fun
    | .struct s => some s
    | _ => none

def functions (p : Program) : List FnDef :=
  p.items.filterMap fun
    | .fn f => some f
    | _ => none

def foreigns (p : Program) : List ForeignDecl :=
  p.items.filterMap fun
    | .foreign e => some e
    | _ => none

end Program

end StructLang
