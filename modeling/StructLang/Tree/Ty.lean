/-!
# Source types

A closed set of scalar types and one type per struct name. Two further marks stand for a type that
is not known yet and for one that could not be found; the second keeps one mistake from causing
another report.
-/

namespace StructLang

/-- The type of an expression, a binding, a parameter or a field. -/
inductive Ty where
  | void
  | bool
  | string
  | i32
  | i64
  | f32
  | f64
  | struct (name : String)
  /-- Not known yet. -/
  | unknown
  /-- Could not be found; a report has been made. -/
  | error
deriving DecidableEq, Inhabited

namespace Ty

/-- The type in source text, messages and linkage names. -/
def name : Ty → String
  | void => "void"
  | bool => "bool"
  | string => "string"
  | i32 => "i32"
  | i64 => "i64"
  | f32 => "f32"
  | f64 => "f64"
  | struct name => name
  | unknown => "unknown"
  | error => "<error>"

/-- The integer types. -/
def isInt : Ty → Bool
  | i32 | i64 => true
  | _ => false

/-- The floating-point types. -/
def isFloat : Ty → Bool
  | f32 | f64 => true
  | _ => false

/-- The types of numbers. -/
def isNumber (t : Ty) : Bool := t.isInt || t.isFloat

/-- The struct types. -/
def isStruct : Ty → Bool
  | struct _ => true
  | _ => false

/-- The name of a struct type. -/
def structName? : Ty → Option String
  | struct name => some name
  | _ => none

/-- Numbers convert to each other, and a truth value to an integer and back. -/
def castsTo (source target : Ty) : Bool :=
  (source.isNumber && target.isNumber) || (source == bool && target.isInt)
    || (source.isInt && target == bool)

end Ty

end StructLang
