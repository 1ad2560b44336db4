import StructLang.Number.Decimal
import StructLang.Text.Span

/-!
# Tokens

The alphabet of the language: keywords, names, literals, operators and delimiters. Each keyword and
each symbol has one spelling, and each token has a short description for messages.
-/

namespace StructLang

/-- Reserved words. -/
inductive Keyword where
  | letKw | mutKw | fnKw | structKw | importKw | ifKw | elseKw | returnKw | foreignKw | newKw | asKw
  | trueKw | falseKw | voidKw | boolKw | stringKw | i32Kw | i64Kw | f32Kw | f64Kw
deriving DecidableEq, Inhabited

namespace Keyword

def all : List Keyword :=
  [letKw, mutKw, fnKw, structKw, importKw, ifKw, elseKw, returnKw, foreignKw, newKw, asKw,
   trueKw, falseKw, voidKw, boolKw, stringKw, i32Kw, i64Kw, f32Kw, f64Kw]

def spelling : Keyword → String
  | letKw => "let"
  | mutKw => "mut"
  | fnKw => "fn"
  | structKw => "struct"
  | importKw => "import"
  | ifKw => "if"
  | elseKw => "else"
  | returnKw => "return"
  | foreignKw => "extern"
  | newKw => "new"
  | asKw => "as"
  | trueKw => "true"
  | falseKw => "false"
  | voidKw => "void"
  | boolKw => "bool"
  | stringKw => "string"
  | i32Kw => "i32"
  | i64Kw => "i64"
  | f32Kw => "f32"
  | f64Kw => "f64"

/-- The word in messages. -/
def label : Keyword → String
  | letKw => "Let"
  | mutKw => "Mut"
  | fnKw => "Fn"
  | structKw => "Struct"
  | importKw => "Import"
  | ifKw => "If"
  | elseKw => "Else"
  | returnKw => "Return"
  | foreignKw => "Extern"
  | newKw => "New"
  | asKw => "As"
  | trueKw => "True"
  | falseKw => "False"
  | voidKw => "KwVoid"
  | boolKw => "KwBool"
  | stringKw => "KwString"
  | i32Kw => "KwI32"
  | i64Kw => "KwI64"
  | f32Kw => "KwF32"
  | f64Kw => "KwF64"

/-- The reserved word with this spelling. -/
def ofSpelling? (s : String) : Option Keyword := all.find? fun k => k.spelling == s

/-- Reading a reserved word's spelling gives the word back. -/
theorem ofSpelling?_spelling (k : Keyword) : ofSpelling? k.spelling = some k := by
  cases k <;> decide

end Keyword

/-- Operators and delimiters. -/
inductive Symbol where
  | plus | minus | star | slash | percent | amp | pipe | caret | tilde | bang | shl | shr
  | assign | eq | ne | lt | le | gt | ge | arrow | dot
  | lparen | rparen | lbrace | rbrace | comma | colon | semi
deriving DecidableEq, Inhabited

namespace Symbol

def spelling : Symbol → String
  | plus => "+"
  | minus => "-"
  | star => "*"
  | slash => "/"
  | percent => "%"
  | amp => "&"
  | pipe => "|"
  | caret => "^"
  | tilde => "~"
  | bang => "!"
  | shl => "<<"
  | shr => ">>"
  | assign => "="
  | eq => "=="
  | ne => "!="
  | lt => "<"
  | le => "<="
  | gt => ">"
  | ge => ">="
  | arrow => "->"
  | dot => "."
  | lparen => "("
  | rparen => ")"
  | lbrace => "\x7b"
  | rbrace => "\x7d"
  | comma => ","
  | colon => ":"
  | semi => ";"

/-- The symbol in messages. -/
def label : Symbol → String
  | plus => "Plus"
  | minus => "Minus"
  | star => "Star"
  | slash => "Slash"
  | percent => "Percent"
  | amp => "Amp"
  | pipe => "Pipe"
  | caret => "Caret"
  | tilde => "Tilde"
  | bang => "Bang"
  | shl => "Shl"
  | shr => "Shr"
  | assign => "Eq"
  | eq => "EqEq"
  | ne => "Ne"
  | lt => "Lt"
  | le => "Le"
  | gt => "Gt"
  | ge => "Ge"
  | arrow => "Arrow"
  | dot => "Dot"
  | lparen => "LParen"
  | rparen => "RParen"
  | lbrace => "LBrace"
  | rbrace => "RBrace"
  | comma => "Comma"
  | colon => "Colon"
  | semi => "Semi"

end Symbol

/-- What a token is, apart from its place. -/
inductive Token.Kind where
  | keyword (word : Keyword)
  | symbol (mark : Symbol)
  | name (text : String)
  /-- `long` is the suffix `L`. -/
  | integer (value : Nat) (long : Bool)
  /-- `single` is the suffix `f`. -/
  | float (value : Binary64) (single : Bool)
  | text (value : String)
  | endOfFile
deriving DecidableEq, Inhabited

namespace Token.Kind

/-- The token in messages. -/
def describe : Token.Kind → String
  | .keyword word => word.label
  | .symbol mark => mark.label
  | .name s => s!"identifier '{s}'"
  | .integer value _ => s!"integer {value}"
  | .float value _ => "float " ++ value.plainText
  | .text _ => "string literal"
  | .endOfFile => "end of file"

/-- How tightly a token binds as an infix operator; a conversion binds tightest. -/
def precedence? : Token.Kind → Option Nat
  | .keyword .asKw => some 11
  | .symbol .star | .symbol .slash | .symbol .percent => some 10
  | .symbol .plus | .symbol .minus => some 9
  | .symbol .shl | .symbol .shr => some 8
  | .symbol .lt | .symbol .le | .symbol .gt | .symbol .ge => some 7
  | .symbol .eq | .symbol .ne => some 6
  | .symbol .amp => some 5
  | .symbol .caret => some 4
  | .symbol .pipe => some 3
  | _ => none

end Token.Kind

/-- A token at its place in the text. -/
structure Token where
  kind : Token.Kind
  span : Span
deriving DecidableEq, Inhabited

end StructLang
