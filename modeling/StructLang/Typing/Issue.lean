import StructLang.Diagnostic
import StructLang.Symbols

/-!
# Issues

The rules of the language that a program can break, and their wording.
-/

namespace StructLang

/-- What an operator asks of its operands. -/
inductive Demand where
  | bool | aNumber | anInteger | boolsOrNumbers | numbers | integers
deriving DecidableEq

/-- The demand in messages. -/
def Demand.describe : Demand → String
  | bool => "bool"
  | aNumber => "a numeric type"
  | anInteger => "an integer type"
  | boolsOrNumbers => "bool or numeric operands"
  | numbers => "numeric operands"
  | integers => "integer operands"

/-- What is wrong with a declaration, a statement or an expression. -/
inductive Issue where
  | duplicateStruct (name : String)
  | duplicateField (name struct : String)
  | voidField (name : String)
  | unknownStruct (name : String)
  | recursiveStruct (name : String)
  | duplicateFunction (name : String)
  | missingEntryPoint
  | duplicateEntryPoint
  | duplicateParameter (name : String)
  | conditionNotBool (found : Ty)
  | returnMismatch (expected found : Ty)
  | initMismatch (name : String) (declared found : Ty)
  | untypedVariable (name : String)
  | undefinedVariable (name : String)
  | assignMismatch (name : String) (expected found : Ty)
  | assignToReceiver
  /-- Only a warning. -/
  | assignToImmutable (name : String)
  | badOperand (spelling : String) (demand : Demand) (found : Ty)
  | operandMismatch (spelling : String) (left right : Ty)
  /-- Only a warning. -/
  | redundantCast
  | invalidCast (source target : Ty)
  | functionNotFound (name : String)
  | noOverload (name : String) (args : List Ty)
  | constructorMismatch (name : String) (expected found : List Ty)
  | notAStruct (member : String) (found : Ty)
  | noSuchField (struct member : String)
deriving DecidableEq

namespace Issue

/-- Types separated by commas. -/
def tyList (types : List Ty) : String := ", ".intercalate (types.map Ty.name)

/-- How grave the issue is. -/
def level : Issue → Level
  | assignToImmutable _ | redundantCast => .warning
  | _ => .error

/-- The issue in words. -/
def message : Issue → String
  | duplicateStruct name => s!"Duplicate struct '{name}'"
  | duplicateField name struct => s!"Duplicate field '{name}' in struct '{struct}'"
  | voidField name => s!"Field '{name}' cannot be void"
  | unknownStruct name => s!"Unknown struct '{name}'"
  | recursiveStruct name => s!"Struct '{name}' contains itself by value"
  | duplicateFunction name =>
    s!"Function '{name}' is already defined with the same parameters"
  | missingEntryPoint => "Missing main function"
  | duplicateEntryPoint => "Duplicate main function"
  | duplicateParameter name => s!"Duplicate parameter '{name}'"
  | conditionNotBool found => s!"If condition must be bool, found {found.name}"
  | returnMismatch expected found =>
    s!"Return type mismatch: expected {expected.name}, found {found.name}"
  | initMismatch name declared found => s!"Type mismatch: variable '{name}' declared as " ++
    s!"{declared.name} but initialized with {found.name}"
  | untypedVariable name => s!"Cannot infer type for variable '{name}'"
  | undefinedVariable name => s!"Undefined variable '{name}'"
  | assignMismatch name expected found => s!"Type mismatch in assignment to '{name}': " ++
    s!"expected {expected.name}, found {found.name}"
  | assignToReceiver => "Cannot assign to 'self'; the receiver is the caller's variable"
  | assignToImmutable name => s!"Assignment to immutable variable '{name}'"
  | badOperand spelling demand found =>
    s!"Operator '{spelling}' requires {demand.describe}, found {found.name}"
  | operandMismatch spelling left right =>
    s!"Type mismatch in binary operation: {left.name} {spelling} {right.name}"
  | redundantCast => "Cast is redundant"
  | invalidCast source target => s!"Invalid cast from {source.name} to {target.name}"
  | functionNotFound name => s!"Function '{name}' not found."
  | noOverload name args => s!"No matching overload for '{name}' with args ({tyList args})"
  | constructorMismatch name expected found =>
    s!"Constructor of '{name}' expects ({tyList expected}), found ({tyList found})"
  | notAStruct member found =>
    s!"Cannot access member '{member}' on non-struct type {found.name}"
  | noSuchField struct member => s!"Struct '{struct}' has no field '{member}'"

/-- The report of an issue at a place. -/
def report (i : Issue) (span : Span) : Diagnostic := ⟨i.level, i.message, some span⟩

end Issue

end StructLang
