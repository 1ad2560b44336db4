import StructLang.Number.Decimal
import StructLang.Text.Quoted

/-!
# Formatted output

The conversions that a running program can print with: `%d` and `%i` for integers, `%f` for floats,
`%s` for texts, `%c` for a byte as a character and `%%` for a percent sign. Any number of `l` may stand
before the letter and means nothing.
-/

namespace StructLang.Printf

/-- An argument of a conversion. -/
inductive Arg where
  | int (v : Int64)
  | float (v : Binary64)
  | text (s : String)
deriving DecidableEq

/-- The argument in messages. -/
def Arg.describe : Arg → String
  | int v => s!"Int({v.toInt})"
  | float v => s!"Float({v.explicitText})"
  | text s => s!"Str({Text.quoted s})"

/-- Why nothing can be printed. -/
inductive Error where
  | dangling
  | missingArgument (conversion : Char)
  | notAccepted (conversion : Char) (arg : Arg)
deriving DecidableEq

def Error.message : Error → String
  | dangling => "dangling '%' in format"
  | missingArgument c => s!"missing argument for '%{c}'"
  | notAccepted c arg => s!"'%{c}' does not accept {arg.describe}"

/-- The text of an argument under a conversion. -/
def convert : Char → Arg → Except Error String
  | 'd', .int v | 'i', .int v => .ok (toString v.toInt)
  | 'f', .float v => .ok (v.fixedPlaces 6)
  | 's', .text s => .ok s
  | 'c', .int v => .ok (String.singleton (Char.ofNat (v.toUInt64.toNat % 256)))
  | c, arg => .error (.notAccepted c arg)

/-- Where the reader of a format stands. -/
inductive State where
  | plain
  /-- After a percent sign. -/
  | conversion

/-- Write the rest of a format with the remaining arguments; arguments left over are ignored. -/
def render : State → List Char → List Arg → Except Error String
  | .plain, [], _ => .ok ""
  | .plain, '%' :: rest, args => render .conversion rest args
  | .plain, c :: rest, args => return String.singleton c ++ (← render .plain rest args)
  | .conversion, [], _ => .error .dangling
  | .conversion, 'l' :: rest, args => render .conversion rest args
  | .conversion, '%' :: rest, args => return "%" ++ (← render .plain rest args)
  | .conversion, c :: _, [] => .error (.missingArgument c)
  | .conversion, c :: rest, arg :: args => do
    let text ← convert c arg
    return text ++ (← render .plain rest args)

/-- The text that a format and its arguments give. -/
def format (fmt : String) (args : List Arg) : Except Error String := render .plain fmt.toList args

end StructLang.Printf
