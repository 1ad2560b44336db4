import StructLang.Tree.Basic

/-!
# Failures of lowering

Why a tree has no code. None of them is the user's mistake: each says that the tree and the analysis at
hand do not fit together.
-/

namespace StructLang

/-- Why an expression, a statement or a function cannot be lowered. -/
inductive LoweringError where
  | unknownStruct (name : String)
  | unknownField (struct member : String)
  | functionNotFound (name : String)
  | unboundVariable (name : String)
  /-- The analysis has no usable type. -/
  | unresolvedType (ty : Ty)
  /-- Values of this type have no register class. -/
  | noClass (ty : Ty)
  | unsupportedCast (source target : Ty)
  | memberOf (ty : Ty)
  /-- The operand type is given as the target writes it. -/
  | unsupportedOperator (op : BinaryOp) (operands : String)
  /-- The operand type is given as the target writes it. -/
  | unsupportedComparison (operands : String)
  | untypedExpr (id : Nat)
  | untypedDecl (id : Nat)
  | untypedVariable (name : String)
deriving DecidableEq

namespace LoweringError

/-- Kinds of failures. -/
inductive Kind where
  | unknownStruct | functionNotFound | unboundVariable | unsupported | codeGeneration
deriving DecidableEq

/-- The kind of a failure. -/
def kind : LoweringError → Kind
  | unknownStruct _ | unknownField .. => .unknownStruct
  | functionNotFound _ => .functionNotFound
  | unboundVariable _ => .unboundVariable
  | unresolvedType _ | noClass _ | unsupportedCast .. | memberOf _ | unsupportedOperator ..
  | unsupportedComparison _ => .unsupported
  | untypedExpr _ | untypedDecl _ | untypedVariable _ => .codeGeneration

/-- The headline of a kind. -/
def Kind.headline : Kind → String → String
  | unknownStruct, detail => s!"Unknown struct layout: {detail}"
  | functionNotFound, detail => s!"Function '{detail}' not found"
  | unboundVariable, detail => s!"Undefined variable in codegen: {detail}"
  | unsupported, detail => s!"Unsupported in codegen: {detail}"
  | codeGeneration, detail => s!"Code generation error: {detail}"

/-- What a failure is about. -/
def detail : LoweringError → String
  | unknownStruct name | functionNotFound name | unboundVariable name => name
  | unknownField struct member => s!"{struct}.{member}"
  | unresolvedType ty => s!"unresolved type {ty.name}"
  | noClass ty => s!"no QBE class for {ty.name}"
  | unsupportedCast source target => s!"cast from {source.name} to {target.name}"
  | memberOf ty => s!"member access on {ty.name}"
  | unsupportedOperator op operands => s!"operator '{op.spelling}' on {operands}"
  | unsupportedComparison operands => s!"comparison of {operands}"
  | untypedExpr id => s!"expression NodeId({id}) has no type"
  | untypedDecl id => s!"declaration NodeId({id}) has no type"
  | untypedVariable name => s!"variable '{name}' has no type"

def message (e : LoweringError) : String := e.kind.headline e.detail

end LoweringError

end StructLang
