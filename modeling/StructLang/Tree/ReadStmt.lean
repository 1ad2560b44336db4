import StructLang.Tree.ReadExpr

/-!
# Reading statements and blocks

Statements need no separator; semicolons between them are skipped. After a mistake a block goes on at
the next token with which a statement can begin, so one pass finds as many mistakes as it can.
-/

namespace StructLang.Tree

/-- Read the declaration of a variable. -/
def readDeclare (fuel : Nat) : Reader Stmt := do
  let start ← expectKeyword .letKw
  let id ← freshId
  let isMutable ← take? (.keyword .mutKw)
  let name ← readName
  let annotation ← if ← take? (.symbol .colon) then some <$> readType else pure none
  let init ← if ← take? (.symbol .assign) then some <$> readExpr fuel else pure none
  return .declare ⟨⟨id, start.merge (← previousSpan)⟩, name, annotation, isMutable, init⟩

/-- Read a return statement; without a value it stands at the end of a block, before a semicolon or
at the end of the file. -/
def readReturn (fuel : Nat) : Reader Stmt := do
  let start ← expectKeyword .returnKw
  let kind ← peek
  let value ←
    if kind == .symbol .rbrace || kind == .symbol .semi || kind == .endOfFile then pure none
    else some <$> readExpr fuel
  return .ret (start.merge (← previousSpan)) value

/-- Read an assignment or an expression that stands alone. -/
def readExprStmt (fuel : Nat) : Reader Stmt := do
  let target ← readExpr fuel
  if ← at? (.symbol .assign) then
    let place := (← advance).span
    let value ← readExpr fuel
    match target with
    | .var node name => return .assign (node.span.merge value.span) name value
    | _ => throw ⟨.badAssignmentTarget, place⟩
  else return .expr target

/-- One turn of reading statements, up to a closing brace, the beginning of an item or the end of the
file. -/
def stmtsTurn (readStmt : Reader Stmt) (next : Reader (List Stmt)) : Reader (List Stmt) := do
  let kind ← peek
  if kind == .symbol .rbrace || kind == .endOfFile || beginsItem kind then return []
  else if ← take? (.symbol .semi) then next
  else
    let before := (← get).left
    match ← attempt readStmt with
    | .ok stmt => return stmt :: (← next)
    | .error e =>
      record e
      if (← get).left == before then
        let _ ← advance
      modify (Cursor.skipBalanced resumesStmt)
      next

mutual

/-- Read a statement. -/
def readStmt : Nat → Reader Stmt
  | 0 => exhausted
  | fuel + 1 => do
    match ← peek with
    | .keyword .letKw => readDeclare fuel
    | .keyword .ifKw =>
      let start ← expectKeyword .ifKw
      let cond ← readExpr fuel
      let thenBlock ← readBlock fuel
      let elseBlock ← if ← take? (.keyword .elseKw) then some <$> readBlock fuel else pure none
      return .branch (start.merge (← previousSpan)) cond thenBlock elseBlock
    | .keyword .returnKw => readReturn fuel
    | _ => readExprStmt fuel

/-- Read a braced block. -/
def readBlock : Nat → Reader Block
  | 0 => exhausted
  | fuel + 1 => do
    let start ← expectSymbol .lbrace
    let id ← freshId
    let stmts ← readStmts fuel
    let _ ← expectSymbol .rbrace
    return .mk ⟨id, start.merge (← previousSpan)⟩ stmts

/-- Read statements. -/
def readStmts : Nat → Reader (List Stmt)
  | 0 => exhausted
  | fuel + 1 => stmtsTurn (readStmt fuel) (readStmts fuel)

end

end StructLang.Tree
