import StructLang.Token.Basic

/-!
# Mistakes of form

What can be wrong with the form of a text, with the place where it was noticed.
-/

namespace StructLang

/-- What the grammar allows at a place. -/
inductive Expectation where
  | symbol (mark : Symbol)
  | keyword (word : Keyword)
  | identifier
  | type
  | expression
  | item
deriving DecidableEq

def Expectation.describe : Expectation → String
  | symbol s => s.label
  | keyword k => k.label
  | identifier => "identifier"
  | type => "type"
  | expression => "expression"
  | item => "item (import, struct, fn, extern)"

/-- Why a text has no tokens or no tree. -/
inductive SyntaxError.Cause where
  | unexpectedChar (c : Char)
  | unterminatedText
  | invalidNumber (text : String)
  | unexpectedToken (expected : Expectation) (found : Token.Kind)
  | badAssignmentTarget
  /-- The reader's step budget ran out; the budget that a token list gets is never used up. -/
  | exhausted
deriving DecidableEq

def SyntaxError.Cause.message : SyntaxError.Cause → String
  | unexpectedChar c => s!"Unexpected character: '{c}'"
  | unterminatedText => "Unterminated string literal"
  | invalidNumber text => "Invalid number literal: " ++ text
  | unexpectedToken expected found =>
    "Unexpected token: expected " ++ expected.describe ++ ", got " ++ found.describe
  | badAssignmentTarget => "Assignment target must be a variable"
  | exhausted => "Nesting too deep"

/-- A mistake of form and its place. -/
structure SyntaxError where
  cause : SyntaxError.Cause
  span : Span
deriving DecidableEq

def SyntaxError.message (e : SyntaxError) : String := e.cause.message

end StructLang
