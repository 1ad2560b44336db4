import StructLang.Scope
import StructLang.Typing.Analysis
import StructLang.Typing.Issue

/-!
# Types of expressions

Each form of expression has a rule that gives its type from the types of its parts. A broken rule
makes one report and gives the type `Ty.error`, and a rule with such a part is silent, so that one
mistake is reported once.
-/

namespace StructLang

/-- What is known about a name in scope. -/
structure Binding where
  ty : Ty
  isMutable : Bool
  /-- Stands for the caller's variable. -/
  isReceiver : Bool

namespace Typing

/-- The outcome of a rule: a type and what there is to report. -/
structure Verdict where
  ty : Ty
  issues : List Issue

namespace Verdict

/-- The rule holds. -/
def accept (ty : Ty) : Verdict := ⟨ty, []⟩

/-- The rule is broken. -/
def reject (issue : Issue) : Verdict := ⟨.error, [issue]⟩

/-- Nothing can be said, because a part has no type. -/
def silent : Verdict := ⟨.error, []⟩

/-- A rule that says nothing unless every part has a type. -/
def whenTyped (parts : List Ty) (verdict : Verdict) : Verdict :=
  if parts.contains .error then silent else verdict

end Verdict

/-- A name has the type of its binding. -/
def varRule (scope : Scope Binding) (name : String) : Verdict :=
  match scope.lookup? name with
  | some b => .accept b.ty
  | none => .reject (.undefinedVariable name)

/-- What a unary operator asks of its operand. -/
def unaryDemand : UnaryOp → Demand
  | .not => .bool
  | .neg => .aNumber
  | .bitNot => .anInteger

/-- What a binary operator asks of its operands. -/
def binaryDemand (op : BinaryOp) : Demand :=
  if op.isEquality then .boolsOrNumbers
  else if op.isOrdering then .numbers
  else if op = .mod || op.isBitwise then .integers
  else .numbers

/-- Whether a type meets a demand. -/
def meets (ty : Ty) : Demand → Bool
  | .bool => ty == .bool
  | .aNumber | .numbers => ty.isNumber
  | .anInteger | .integers => ty.isInt
  | .boolsOrNumbers => ty == .bool || ty.isNumber

/-- A unary operator keeps the type of its operand. -/
def unaryRule (op : UnaryOp) (ty : Ty) : Verdict :=
  if meets ty (unaryDemand op) then .accept ty
  else .reject (.badOperand op.spelling (unaryDemand op) ty)

/-- Operands have one type; a comparison gives a truth value, any other operator that type. -/
def binaryRule (op : BinaryOp) (left right : Ty) : Verdict :=
  if left ≠ right then .reject (.operandMismatch op.spelling left right)
  else if meets left (binaryDemand op) then .accept (if op.isComparison then .bool else left)
  else .reject (.badOperand op.spelling (binaryDemand op) left)

/-- A cast gives its target; a cast to the same type is allowed and reported. -/
def castRule (source target : Ty) : Verdict :=
  if source = target then ⟨target, [.redundantCast]⟩
  else if source.castsTo target then .accept target
  else .reject (.invalidCast source target)

/-- A call has the result type of the declaration that it means. -/
def callRule (symbols : Symbols) (name : String) (args : List Ty) : Verdict :=
  match symbols.resolve name args with
  | .ok callee => .accept callee.ret
  | .error .notFound => .reject (.functionNotFound name)
  | .error .noMatch => .reject (.noOverload name args)

/-- A construction takes one value per field. -/
def constructRule (symbols : Symbols) (name : String) (args : List Ty) : Verdict :=
  match symbols.struct? name with
  | none => .reject (.unknownStruct name)
  | some d =>
    let expected := d.fields.map TypedName.ty
    .whenTyped args <|
      if expected = args then .accept (.struct name)
      else .reject (.constructorMismatch name expected args)

/-- A member has the type of its field. -/
def accessRule (symbols : Symbols) (object : Ty) (member : String) : Verdict :=
  match object with
  | .struct name =>
    match symbols.field? object member with
    | some (_, ty) => .accept ty
    | none => .reject (.noSuchField name member)
  | ty => .reject (.notAStruct member ty)

/-- Record the outcome of the rule of a node. -/
def conclude (node : Node) (parts : Analysis) (verdict : Verdict) : Ty × Analysis :=
  (verdict.ty, parts ++ .reports (verdict.issues.map fun i => i.report node.span)
    ++ .typed node.id verdict.ty)

mutual

/-- The type of an expression, with the findings about it and its parts. -/
def infer (symbols : Symbols) (scope : Scope Binding) : Expr → Ty × Analysis
  | .integer n _ long => conclude n ∅ (.accept (if long then .i64 else .i32))
  | .float n _ single => conclude n ∅ (.accept (if single then .f32 else .f64))
  | .bool n _ => conclude n ∅ (.accept .bool)
  | .text n _ => conclude n ∅ (.accept .string)
  | .var n name => conclude n ∅ (varRule scope name)
  | .unary n op e =>
    let (t, a) := infer symbols scope e
    conclude n a (.whenTyped [t] (unaryRule op t))
  | .binary n op l r =>
    let (lt, la) := infer symbols scope l
    let (rt, ra) := infer symbols scope r
    conclude n (la ++ ra) (.whenTyped [lt, rt] (binaryRule op lt rt))
  | .cast n e target =>
    let (t, a) := infer symbols scope e
    conclude n a (.whenTyped [t] (castRule t target))
  | .call n name args =>
    let (ts, a) := inferAll symbols scope args
    conclude n a (.whenTyped ts (callRule symbols name ts))
  | .construct n name args =>
    let (ts, a) := inferAll symbols scope args
    conclude n a (constructRule symbols name ts)
  | .access n e member =>
    let (t, a) := infer symbols scope e
    conclude n a (.whenTyped [t] (accessRule symbols t member))

/-- The types of expressions, from left to right. -/
def inferAll (symbols : Symbols) (scope : Scope Binding) : List Expr → List Ty × Analysis
  | [] => ([], ∅)
  | e :: es =>
    let (t, a) := infer symbols scope e
    let (ts, b) := inferAll symbols scope es
    (t :: ts, a ++ b)

end

end Typing

end StructLang
