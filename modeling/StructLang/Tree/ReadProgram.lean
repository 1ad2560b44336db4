import StructLang.Token.Scan
import StructLang.Tree.ReadStmt

/-!
# Reading programs

A program is a sequence of items. After a mistake reading goes on at the next keyword that begins an
item. `Program.ofTokens` reads a token list and `Program.parse` a source text.
-/

namespace StructLang.Tree

/-- Read the rest of a dotted name. -/
def readDotted : Nat → Reader (List String)
  | 0 => exhausted
  | fuel + 1 => do
    if ← take? (.symbol .dot) then
      let part ← readName
      return part :: (← readDotted fuel)
    else return []

/-- Read an import. -/
def readImport (fuel : Nat) : Reader Import := do
  let start ← expectKeyword .importKw
  let first ← readName
  let rest ← readDotted fuel
  return ⟨first :: rest, start.merge (← previousSpan)⟩

/-- Read a name, a colon and a type. -/
def readTypedName : Reader TypedName := do
  let start ← peekSpan
  let name ← readName
  let _ ← expectSymbol .colon
  let ty ← readType
  return ⟨name, ty, start.merge (← previousSpan)⟩

/-- One turn of reading the fields of a struct; a comma may follow each of them. -/
def fieldsTurn (next : Reader (List TypedName)) : Reader (List TypedName) := do
  let kind ← peek
  if kind == .symbol .rbrace || kind == .endOfFile then return []
  else
    let field ← readTypedName
    let _ ← take? (.symbol .comma)
    return field :: (← next)

/-- Read the fields of a struct. -/
def readFields : Nat → Reader (List TypedName)
  | 0 => exhausted
  | fuel + 1 => fieldsTurn (readFields fuel)

/-- Read a struct. -/
def readStruct (fuel : Nat) : Reader StructDef := do
  let start ← expectKeyword .structKw
  let name ← readName
  let _ ← expectSymbol .lbrace
  let fields ← readFields fuel
  let _ ← expectSymbol .rbrace
  return ⟨name, fields, start.merge (← previousSpan)⟩

/-- Read parameters separated by commas. -/
def readParamList : Nat → Reader (List TypedName)
  | 0 => exhausted
  | fuel + 1 => listTurn readTypedName (readParamList fuel)

/-- Read parenthesised parameters and the result type behind an arrow. -/
def readHeader (fuel : Nat) : Reader (List TypedName × Ty) := do
  let _ ← expectSymbol .lparen
  let params ← readParamList fuel
  let _ ← expectSymbol .rparen
  let _ ← expectSymbol .arrow
  let ret ← readType
  return (params, ret)

/-- Read a function; a dotted name gives its receiver. -/
def readFunction (fuel : Nat) : Reader FnDef := do
  let start ← expectKeyword .fnKw
  let first ← readName
  let (receiver, name) ←
    if ← take? (.symbol .dot) then pure (some (Ty.struct first), ← readName)
    else pure (none, first)
  let (params, ret) ← readHeader fuel
  let body ← readBlock fuel
  return ⟨⟨name, "", receiver, params, ret, start.merge (← previousSpan)⟩, body⟩

/-- Read a foreign declaration. -/
def readForeign (fuel : Nat) : Reader ForeignDecl := do
  let start ← expectKeyword .foreignKw
  let _ ← expectKeyword .fnKw
  let name ← readName
  let (params, ret) ← readHeader fuel
  return ⟨name, params, ret, start.merge (← previousSpan)⟩

/-- Read an item. -/
def readItem (fuel : Nat) : Reader Item := do
  match ← peek with
  | .keyword .importKw => .importing <$> readImport fuel
  | .keyword .structKw => .struct <$> readStruct fuel
  | .keyword .fnKw => .fn <$> readFunction fuel
  | .keyword .foreignKw => .foreign <$> readForeign fuel
  | _ => unexpected .item

/-- One turn of reading items, up to the end of the file. -/
def itemsTurn (readItem : Reader Item) (next : Reader (List Item)) : Reader (List Item) := do
  let kind ← peek
  if kind == .endOfFile then return []
  else if ← take? (.symbol .semi) then next
  else
    let before := (← get).left
    match ← attempt readItem with
    | .ok item => return item :: (← next)
    | .error e =>
      record e
      let c ← get
      if c.left == before || !beginsItem c.current.kind then
        set (c.advance.skipUntil beginsItem)
      next

/-- Read items. -/
def readItems : Nat → Reader (List Item)
  | 0 => exhausted
  | fuel + 1 => itemsTurn (readItem fuel) (readItems fuel)

/-- Enough steps to read a list of tokens. -/
def budget (tokens : List Token) : Nat := 4 * tokens.length + 16

end StructLang.Tree

namespace StructLang

/-- The outcome of reading a program: the program or the mistakes, and the next free node number. -/
structure Reading where
  result : Except (List SyntaxError) Program
  nextId : Nat

/-- Read a program from tokens, numbering nodes from `firstId` on. -/
def Program.ofTokens (tokens : List Token) (firstId : Nat) : Reading :=
  match Tree.readItems (Tree.budget tokens) (Tree.Cursor.ofTokens tokens firstId) with
  | .ok items c =>
    ⟨if c.mistakes.isEmpty then .ok ⟨items⟩ else .error c.mistakes, c.nextId⟩
  | .error e c => ⟨.error (c.mistakes ++ [e]), c.nextId⟩

/-- Read a program from a source text: the program with the next free node number, or every
mistake. -/
def Program.parse (source : String) (file firstId : Nat) :
    Except (List SyntaxError) (Program × Nat) := do
  match Token.tokenize file source with
  | .error e => throw [e]
  | .ok tokens =>
    let reading := Program.ofTokens tokens firstId
    return (← reading.result, reading.nextId)

end StructLang
