import StructLang.SyntaxError
import StructLang.Text.Letter

/-!
# Cutting text into tokens

Between tokens stand blanks and line comments. A lexeme is the longest run of characters that one of
the readers accepts; each reader splits the text into the lexeme and the rest, so no character is
lost. `scan` cuts a whole text and goes on behind a mistake; `tokenize` stops at the first one.
-/

namespace StructLang.Token

open scoped CoreNumbers

/-- A character that only separates tokens. -/
def isBlank (c : Char) : Bool := c == ' ' || c == '\t' || c == '\r' || c == '\n'

/-- A character that begins a name. -/
def isNameStart (c : Char) : Bool := Text.isAlphabetic c || c == '_'

/-- A character that continues a name. -/
def isNamePart (c : Char) : Bool := Text.isAlphanumeric c || c == '_'

/-- Split a text into the blanks and comments at its front and the rest. A comment ends with its
line, and everything inside it belongs to the gap. -/
def splitGap (inComment : Bool) : List Char → List Char × List Char
  | [] => ([], [])
  | c :: cs =>
    if inComment then (splitGap (c != '\n') cs).map (c :: ·) id
    else if isBlank c then (splitGap false cs).map (c :: ·) id
    else if c == '/' && cs.head? == some '/' then (splitGap true cs).map (c :: ·) id
    else ([], c :: cs)

/-- Number of bytes of the characters in UTF-8. -/
def byteLength (cs : List Char) : Nat := (cs.map Char.utf8Size).sum

/-- A lexeme cut off the front of a text: its characters, what they mean, and the rest. -/
structure Lexeme where
  chars : List Char
  meaning : Except SyntaxError.Cause Token.Kind
  rest : List Char

/-- A keyword or a name from the characters of a word. -/
def wordKind (chars : List Char) : Token.Kind :=
  let s := String.ofList chars
  match Keyword.ofSpelling? s with
  | some k => .keyword k
  | none => .name s

/-- The longest word at the front. -/
def readWord (cs : List Char) : Lexeme :=
  let chars := cs.takeWhile isNamePart
  ⟨chars, .ok (wordKind chars), cs.dropWhile isNamePart⟩

/-- The number that decimal digits denote. -/
def decimalValue (digits : List Char) : Nat :=
  digits.foldl (fun n c => 10 * n + (c.toNat - '0'.toNat)) 0

/-- Split off a fraction: a point followed by at least one digit. -/
def readFraction : List Char → List Char × List Char
  | '.' :: d :: cs =>
    if d.isDigit then (d :: cs.takeWhile Char.isDigit, cs.dropWhile Char.isDigit)
    else ([], '.' :: d :: cs)
  | cs => ([], cs)

/-- A floating-point literal, which has to stay finite in its own width. -/
def floatKind (whole fraction : List Char) (single : Bool) (chars : List Char) :
    Except SyntaxError.Cause Token.Kind :=
  let value := Binary64.ofDecimal (decimalValue (whole ++ fraction)) fraction.length
  let finite := if single then value.toBinary32.isFinite else value.isFinite
  if finite then .ok (.float value single)
  else .error (.invalidNumber (String.ofList chars))

/-- An integer literal, which has to stay below `2 ^ 63`. -/
def integerKind (digits : List Char) (long : Bool) (chars : List Char) :
    Except SyntaxError.Cause Token.Kind :=
  let value := decimalValue digits
  if value < 2 ^ (63 : Nat) then .ok (.integer value long)
  else .error (.invalidNumber (String.ofList chars))

/-- The longest number at the front: digits, a fraction, a suffix. -/
def readNumber (cs : List Char) : Lexeme :=
  let whole := cs.takeWhile Char.isDigit
  let (fraction, rest) := readFraction (cs.dropWhile Char.isDigit)
  let body := whole ++ (if fraction.isEmpty then [] else '.' :: fraction)
  match rest with
  | 'f' :: rest =>
    let chars := body ++ ['f']
    ⟨chars, floatKind whole fraction true chars, rest⟩
  | rest =>
    if !fraction.isEmpty then ⟨body, floatKind whole fraction false body, rest⟩
    else
      match rest with
      | 'L' :: rest =>
        let chars := body ++ ['L']
        ⟨chars, integerKind whole true chars, rest⟩
      | rest => ⟨body, integerKind whole false body, rest⟩

/-- The character that a backslash and `c` stand for. -/
def unescape (c : Char) : Char :=
  if c = 'n' then '\n' else if c = 'r' then '\r' else if c = 't' then '\t' else c

/-- Read a quoted text behind its opening quote: the characters up to the closing quote, their
meaning if there is one, and the rest. -/
def readQuoted : List Char → List Char × Option (List Char) × List Char
  | [] => ([], none, [])
  | '"' :: cs => (['"'], some [], cs)
  | '\\' :: c :: cs =>
    let (chars, value, rest) := readQuoted cs
    ('\\' :: c :: chars, value.map (unescape c :: ·), rest)
  | ['\\'] => (['\\'], none, [])
  | c :: cs =>
    let (chars, value, rest) := readQuoted cs
    (c :: chars, value.map (c :: ·), rest)

/-- The longest operator or delimiter at the front. -/
def symbol? : List Char → Option Symbol
  | '-' :: '>' :: _ => some .arrow
  | '!' :: '=' :: _ => some .ne
  | '=' :: '=' :: _ => some .eq
  | '<' :: '<' :: _ => some .shl
  | '<' :: '=' :: _ => some .le
  | '>' :: '>' :: _ => some .shr
  | '>' :: '=' :: _ => some .ge
  | '(' :: _ => some .lparen
  | ')' :: _ => some .rparen
  | '\x7b' :: _ => some .lbrace
  | '\x7d' :: _ => some .rbrace
  | ',' :: _ => some .comma
  | '.' :: _ => some .dot
  | ':' :: _ => some .colon
  | ';' :: _ => some .semi
  | '+' :: _ => some .plus
  | '*' :: _ => some .star
  | '/' :: _ => some .slash
  | '%' :: _ => some .percent
  | '&' :: _ => some .amp
  | '|' :: _ => some .pipe
  | '^' :: _ => some .caret
  | '~' :: _ => some .tilde
  | '-' :: _ => some .minus
  | '!' :: _ => some .bang
  | '=' :: _ => some .assign
  | '<' :: _ => some .lt
  | '>' :: _ => some .gt
  | _ => none

/-- Cut one lexeme off a text that begins with the character `c`. -/
def readLexeme (c : Char) (cs : List Char) : Lexeme :=
  if isNameStart c then readWord (c :: cs)
  else if c.isDigit then readNumber (c :: cs)
  else if c = '"' then
    let (chars, value, rest) := readQuoted cs
    ⟨c :: chars, match value with
      | some value => .ok (.text (String.ofList value))
      | none => .error .unterminatedText, rest⟩
  else
    match symbol? (c :: cs) with
    | some s =>
      let n := s.spelling.length
      ⟨(c :: cs).take n, .ok (.symbol s), (c :: cs).drop n⟩
    | none => ⟨[c], .error (.unexpectedChar c), cs⟩

/-- Cut a text from byte `pos` on: one entry per token or mistake, the end of the file last. -/
def scanFrom (file : Nat) : Nat → Nat → List Char → List (Except SyntaxError Token)
  | 0, _, _ => []
  | fuel + 1, pos, cs =>
    let (gap, body) := splitGap false cs
    let start := pos + byteLength gap
    match body with
    | [] => [.ok ⟨.endOfFile, ⟨start, start, file⟩⟩]
    | c :: cs =>
      let lexeme := readLexeme c cs
      let stop := start + byteLength lexeme.chars
      let span : Span := ⟨start, stop, file⟩
      let entry := match lexeme.meaning with
        | .ok kind => .ok ⟨kind, span⟩
        | .error cause => .error ⟨cause, span⟩
      entry :: scanFrom file fuel stop lexeme.rest

/-- Every token and mistake of a text. Each lexeme has a character, so there is at most one entry
per character and one for the end. -/
def scan (file : Nat) (source : String) : List (Except SyntaxError Token) :=
  let cs := source.toList
  scanFrom file (cs.length + 1) 0 cs

/-- The entries before the first mistake, if there is none; else that mistake. -/
def firstMistake {ε α : Type} : List (Except ε α) → Except ε (List α)
  | [] => .ok []
  | .ok a :: rest => (a :: ·) <$> firstMistake rest
  | .error e :: _ => .error e

/-- The tokens of a text, the end of the file last. -/
def tokenize (file : Nat) (source : String) : Except SyntaxError (List Token) :=
  firstMistake (scan file source)

end StructLang.Token
