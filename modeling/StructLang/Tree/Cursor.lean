import StructLang.SyntaxError
import StructLang.Tree.Ty

/-!
# Reading a token list

A cursor stands in front of the tokens that are still ahead; behind them the end of the file repeats
for ever. Readers move a cursor, number nodes and collect the mistakes that they could step over.
A reader that fails leaves the cursor where the mistake was noticed.
-/

namespace StructLang.Tree

/-- A place in a token list, with the numbering of nodes and the mistakes found so far. -/
structure Cursor where
  /-- Place of the token before the current one. -/
  previous : Span
  /-- Tokens from the current one on. -/
  ahead : List Token
  /-- Place of the end of the file. -/
  finish : Span
  /-- The next free node number. -/
  nextId : Nat
  /-- Mistakes stepped over, in the order in which they were found. -/
  mistakes : List SyntaxError

namespace Cursor

/-- The current token; behind the last one the end of the file. -/
def current (c : Cursor) : Token :=
  match c.ahead with
  | t :: _ => t
  | [] => ⟨.endOfFile, c.finish⟩

/-- Step over the current token; the end of the file stays. -/
def advance (c : Cursor) : Cursor :=
  match c.ahead with
  | t :: rest => { c with previous := t.span, ahead := rest }
  | [] => c

/-- Number of tokens before the end of the file. -/
def left (c : Cursor) : Nat := c.ahead.length

/-- A cursor at the front of a list whose last token is the end of the file; a list without one
ends at the place of its last token. -/
def ofTokens (tokens : List Token) (firstId : Nat) : Cursor :=
  let last := tokens.getLast?
  let finish := match last with
    | some t => t.span
    | none => ⟨0, 0, 0⟩
  let ahead := match last with
    | some ⟨.endOfFile, _⟩ => tokens.dropLast
    | _ => tokens
  let first := match ahead with
    | t :: _ => t.span
    | [] => finish
  ⟨first, ahead, finish, firstId, []⟩

/-- Skip tokens until one satisfies `stop` or the end of the file comes. -/
def skipUntil (stop : Token.Kind → Bool) (c : Cursor) : Cursor :=
  let rec go (previous : Span) : List Token → Cursor
    | [] => { c with previous := previous, ahead := [] }
    | t :: rest =>
      if t.kind == .endOfFile || stop t.kind then { c with previous := previous, ahead := t :: rest }
      else go t.span rest
  go c.previous c.ahead

/-- Skip tokens, stepping over nested braces, until outside of them one satisfies `stop`, a brace
closes the enclosing block, or the end of the file comes. -/
def skipBalanced (stop : Token.Kind → Bool) (c : Cursor) : Cursor :=
  let rec go (depth : Nat) (previous : Span) : List Token → Cursor
    | [] => { c with previous := previous, ahead := [] }
    | t :: rest =>
      let here := { c with previous := previous, ahead := t :: rest }
      match t.kind, depth with
      | .endOfFile, _ => here
      | .symbol .lbrace, _ => go (depth + 1) t.span rest
      | .symbol .rbrace, 0 => here
      | .symbol .rbrace, d + 1 => go d t.span rest
      | kind, 0 => if stop kind then here else go 0 t.span rest
      | _, _ => go depth t.span rest
  go 0 c.previous c.ahead

end Cursor

/-- A step of reading: a result or a mistake, and where the cursor then stands. -/
abbrev Reader := EStateM SyntaxError Cursor

def peek : Reader Token.Kind := return (← get).current.kind

def peekSpan : Reader Span := return (← get).current.span

def previousSpan : Reader Span := return (← get).previous

/-- Step over the current token and return it. -/
def advance : Reader Token := do
  let c ← get
  set c.advance
  return c.current

def freshId : Reader Nat := do
  let c ← get
  set { c with nextId := c.nextId + 1 }
  return c.nextId

/-- Report that the current token is not what was expected. -/
def unexpected {α : Type} (expected : Expectation) : Reader α := do
  let t := (← get).current
  throw ⟨.unexpectedToken expected t.kind, t.span⟩

/-- Whether the current token is of this kind. -/
def at? (kind : Token.Kind) : Reader Bool := return (← peek) == kind

/-- Step over the current token if it is of this kind. -/
def take? (kind : Token.Kind) : Reader Bool := do
  if ← at? kind then
    let _ ← advance
    return true
  else return false

/-- Step over a symbol and return its place. -/
def expectSymbol (mark : Symbol) : Reader Span := do
  if ← at? (.symbol mark) then return (← advance).span
  else unexpected (.symbol mark)

/-- Step over a keyword and return its place. -/
def expectKeyword (word : Keyword) : Reader Span := do
  if ← at? (.keyword word) then return (← advance).span
  else unexpected (.keyword word)

def readName : Reader String := do
  match ← peek with
  | .name s =>
    let _ ← advance
    return s
  | _ => unexpected .identifier

/-- The type that a token names. -/
def typeOf? : Token.Kind → Option Ty
  | .keyword .voidKw => some .void
  | .keyword .boolKw => some .bool
  | .keyword .stringKw => some .string
  | .keyword .i32Kw => some .i32
  | .keyword .i64Kw => some .i64
  | .keyword .f32Kw => some .f32
  | .keyword .f64Kw => some .f64
  | .name s => some (.struct s)
  | _ => none

/-- Read a type; the token is used up even if it names none. -/
def readType : Reader Ty := do
  let t ← advance
  match typeOf? t.kind with
  | some ty => return ty
  | none => throw ⟨.unexpectedToken .type t.kind, t.span⟩

/-- Run a reader and return its mistake instead of failing; the cursor stays where it stopped. -/
def attempt {α : Type} (r : Reader α) : Reader (Except SyntaxError α) := fun c =>
  match r c with
  | .ok a c => .ok (.ok a) c
  | .error e c => .ok (.error e) c

/-- Remember a mistake and go on. -/
def record (e : SyntaxError) : Reader Unit :=
  modify fun c => { c with mistakes := c.mistakes ++ [e] }

/-- The step budget ran out. -/
def exhausted {α : Type} : Reader α := do throw ⟨.exhausted, ← peekSpan⟩

/-- Keywords that begin an item. -/
def beginsItem : Token.Kind → Bool
  | .keyword .fnKw | .keyword .structKw | .keyword .foreignKw | .keyword .importKw => true
  | _ => false

/-- Tokens at which statements resume after a mistake. -/
def resumesStmt : Token.Kind → Bool
  | .keyword .letKw | .keyword .ifKw | .keyword .returnKw | .symbol .semi => true
  | kind => beginsItem kind

end StructLang.Tree
