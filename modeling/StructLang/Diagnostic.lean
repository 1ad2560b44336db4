import StructLang.Sources
import StructLang.Text.Quoted

/-!
# Diagnostics

Reported problems and their two renderings: an excerpt of the source with the place underlined, and
one JSON object on a line.
-/

namespace StructLang

/-- How grave a report is. -/
inductive Level where
  | info | warning | error
deriving DecidableEq

/-- The level in an excerpt. -/
def Level.name : Level → String
  | info => "info"
  | warning => "warning"
  | error => "error"

/-- The level in a JSON report. -/
def Level.tag : Level → String
  | info => "info"
  | warning => "warn"
  | error => "error"

/-- A reported problem. -/
structure Diagnostic where
  level : Level
  message : String
  span : Option Span
deriving DecidableEq

namespace Diagnostic

/-- Whether a report stops compilation. -/
def isError (d : Diagnostic) : Bool := d.level == .error

/-- Every tab as four blanks. -/
def expandTabs (text : List Char) : String :=
  String.join (text.map fun c => if c = '\t' then "    " else c.toString)

/-- How many columns a text takes when its tabs are expanded. -/
def width (text : List Char) : Nat := text.foldl (fun n c => n + if c = '\t' then 4 else 1) 0

def fill (n : Nat) (c : Char) : String := String.ofList (List.replicate n c)

/-- The excerpt below the headline: path, line and a caret under each byte of the span. -/
def excerpt (d : Diagnostic) (span : Span) (file : SourceFile) (place : Location) : String :=
  let number := toString place.line
  let gutter := fill number.length ' '
  let pad := fill (width (place.text.toList.take (place.column - 1))) ' '
  let caret := fill (max span.length 1) '^'
  s!"{gutter}--> {file.path}:{number}:{place.column}\n" ++ s!"{gutter} |\n"
    ++ s!"{number} | " ++ expandTabs place.text.toList ++ "\n"
    ++ s!"{gutter} | {pad}{caret} {d.message}\n"

/-- The report for people. -/
def human (d : Diagnostic) (sources : Sources) : String :=
  let headline := s!"{d.level.name}: {d.message}\n"
  match d.span with
  | none => headline
  | some span =>
    match sources.locate? span with
    | none => headline
    | some (file, place) => headline ++ d.excerpt span file place

/-- A character inside a JSON string. -/
def jsonChar (c : Char) : String :=
  match c with
  | '"' => "\\\""
  | '\\' => "\\\\"
  | '\x08' => "\\b"
  | '\t' => "\\t"
  | '\n' => "\\n"
  | '\x0c' => "\\f"
  | '\r' => "\\r"
  | _ => if c.toNat < 0x20 then "\\u" ++ Text.hexPadded 4 c.toNat else c.toString

def jsonText (s : String) : String := "\"" ++ String.join (s.toList.map jsonChar) ++ "\""

/-- The report as a JSON object on one line. -/
def json (d : Diagnostic) (sources : Sources) : String :=
  let located := d.span.bind sources.locate?
  let orNull (text : SourceFile × Location → String) : String :=
    (located.map text).getD "null"
  "\x7b\"level\":" ++ jsonText d.level.tag ++ ",\"message\":" ++ jsonText d.message
    ++ ",\"file\":" ++ orNull (fun p => jsonText p.1.path)
    ++ ",\"line\":" ++ orNull (fun p => toString p.2.line)
    ++ ",\"column\":" ++ orNull (fun p => toString p.2.column) ++ "\x7d"

end Diagnostic

end StructLang
