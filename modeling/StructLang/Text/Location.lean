/-!
# Lines and columns

Where a byte offset stands in a text: its line, its column and the text of the line. Lines and
columns count from one; a column counts characters.
-/

namespace StructLang

/-- A line number, a column and the text of that line. -/
structure Location where
  line : Nat
  column : Nat
  text : String
deriving DecidableEq

namespace Text

/-- Cut a text at a byte offset; an offset past the end cuts there. -/
def cutAtByte : Nat → List Char → List Char × List Char
  | _, [] => ([], [])
  | 0, rest => ([], rest)
  | n, c :: rest =>
    let (before, after) := cutAtByte (n - c.utf8Size) rest
    (c :: before, after)

/-- What follows the last line break. -/
def lastLine (before : List Char) : List Char :=
  (before.reverse.takeWhile (· ≠ '\n')).reverse

/-- The location of a byte offset. -/
def locate (text : String) (offset : Nat) : Location :=
  let (before, after) := cutAtByte offset text.toList
  let start := lastLine before
  { line := before.count '\n' + 1
    column := start.length + 1
    text := String.ofList (start ++ after.takeWhile (· ≠ '\n')) }

end Text

end StructLang
