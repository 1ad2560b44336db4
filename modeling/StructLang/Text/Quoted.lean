import StructLang.Text.Visible

/-!
# Hexadecimal and quoted text

Numbers in base sixteen, and the quoted form in which messages show a text: a quote, a backslash and
the usual control characters are escaped, and any other character that a reader could not see is
spelled by its code point.
-/

namespace StructLang.Text

/-- Lower-case hexadecimal digits without leading zeros. -/
def hex (n : Nat) : String := String.ofList (Nat.toDigits 16 n)

/-- A text filled up with leading zeros to a width. -/
def padZeros (width : Nat) (s : String) : String :=
  String.ofList (List.replicate (width - s.length) '0') ++ s

/-- Lower-case hexadecimal digits filled up to a width. -/
def hexPadded (width n : Nat) : String := padZeros width (hex n)

/-- Upper-case hexadecimal digits filled up to a width. -/
def upperHexPadded (width n : Nat) : String :=
  padZeros width (String.ofList ((Nat.toDigits 16 n).map Char.toUpper))

/-- A character as it stands between quotes. -/
def quotedChar (c : Char) : String :=
  if c = '"' then "\\\""
  else if c = '\\' then "\\\\"
  else if c = '\n' then "\\n"
  else if c = '\r' then "\\r"
  else if c = '\t' then "\\t"
  else if c.toNat = 0 then "\\0"
  else if isVisible c then String.singleton c
  else "\\u\x7b" ++ hex c.toNat ++ "\x7d"

def quoted (s : String) : String := "\"" ++ String.join (s.toList.map quotedChar) ++ "\""

end StructLang.Text
