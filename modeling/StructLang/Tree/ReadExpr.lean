import StructLang.Tree.Basic
import StructLang.Tree.Cursor

/-!
# Reading expressions

An expression is an operand followed by infix operators, each of which takes as its right operand
everything that binds more tightly. An operand is a primary with any number of member accesses and
method calls behind it and unary operators in front. Each function takes a step budget first; four
steps per token are enough. What repeats is written as one turn, which is given how to go on.
-/

namespace StructLang.Tree

/-- The operator that a token denotes in front of an operand. -/
def unaryOp? : Token.Kind → Option UnaryOp
  | .symbol .bang => some .not
  | .symbol .minus => some .neg
  | .symbol .tilde => some .bitNot
  | _ => none

/-- The operator that a token denotes between operands. -/
def binaryOp? : Token.Kind → Option BinaryOp
  | .symbol .plus => some .add
  | .symbol .minus => some .sub
  | .symbol .star => some .mul
  | .symbol .slash => some .div
  | .symbol .percent => some .mod
  | .symbol .eq => some .eq
  | .symbol .ne => some .ne
  | .symbol .lt => some .lt
  | .symbol .le => some .le
  | .symbol .gt => some .gt
  | .symbol .ge => some .ge
  | .symbol .amp => some .bitAnd
  | .symbol .pipe => some .bitOr
  | .symbol .caret => some .bitXor
  | .symbol .shl => some .shl
  | .symbol .shr => some .shr
  | _ => none

/-- Number a node at a place. -/
def freshNode (span : Span) : Reader Node := return ⟨← freshId, span⟩

/-- One turn of reading infix operators that bind at least as tightly as `least`. -/
def operatorsTurn (least : Nat) (readAbove : Nat → Reader Expr) (next : Expr → Reader Expr)
    (left : Expr) : Reader Expr := do
  let kind ← peek
  match kind.precedence? with
  | none => return left
  | some strength =>
    if strength < least then return left
    else
      let _ ← advance
      match binaryOp? kind with
      | some op =>
        let right ← readAbove (strength + 1)
        let node ← freshNode (left.span.merge right.span)
        next (.binary node op left right)
      | none =>
        let target ← readType
        let node ← freshNode (left.span.merge (← previousSpan))
        next (.cast node left target)

/-- One turn of reading member accesses and method calls. -/
def membersTurn (readArgs : Reader (List Expr)) (next : Expr → Reader Expr) (object : Expr) :
    Reader Expr := do
  if ← take? (.symbol .dot) then
    let member ← readName
    if ← at? (.symbol .lparen) then
      let args ← readArgs
      let node ← freshNode (object.span.merge (← previousSpan))
      next (.call node member (object :: args))
    else
      let node ← freshNode (object.span.merge (← previousSpan))
      next (.access node object member)
  else return object

/-- One turn of reading a parenthesised list. A comma separates elements and may follow the last one. -/
def listTurn {α : Type} (readElement : Reader α) (next : Reader (List α)) : Reader (List α) := do
  let kind ← peek
  if kind == .symbol .rparen || kind == .endOfFile then return []
  else
    let x ← readElement
    if ← take? (.symbol .comma) then return x :: (← next)
    else return [x]

mutual

/-- Read an expression whose infix operators bind at least as tightly as `least`. -/
def readExprAbove : Nat → Nat → Reader Expr
  | 0, _ => exhausted
  | fuel + 1, least => do
    let left ← readOperand fuel
    readOperators fuel least left

/-- Read the infix operators behind an operand. -/
def readOperators : Nat → Nat → Expr → Reader Expr
  | 0, _, _ => exhausted
  | fuel + 1, least, left =>
    operatorsTurn least (readExprAbove fuel) (readOperators fuel least) left

/-- Read unary operators, then a primary with what follows it. -/
def readOperand : Nat → Reader Expr
  | 0 => exhausted
  | fuel + 1 => do
    match unaryOp? (← peek) with
    | some op =>
      let start := (← advance).span
      let operand ← readOperand fuel
      let node ← freshNode (start.merge operand.span)
      return .unary node op operand
    | none =>
      let primary ← readPrimary fuel
      readMembers fuel primary

/-- Read the member accesses and method calls behind an expression. -/
def readMembers : Nat → Expr → Reader Expr
  | 0, _ => exhausted
  | fuel + 1, object => membersTurn (readArgs fuel) (readMembers fuel) object

/-- Read a literal, a variable, a call, a constructor call or a parenthesised expression. -/
def readPrimary : Nat → Reader Expr
  | 0 => exhausted
  | fuel + 1 => do
    let t ← advance
    match t.kind with
    | .integer value long => return .integer (← freshNode t.span) value long
    | .float value single => return .float (← freshNode t.span) value single
    | .text value => return .text (← freshNode t.span) value
    | .keyword .trueKw => return .bool (← freshNode t.span) true
    | .keyword .falseKw => return .bool (← freshNode t.span) false
    | .symbol .lparen =>
      let inner ← readExprAbove fuel 0
      let _ ← expectSymbol .rparen
      return inner
    | .keyword .newKw =>
      let name ← readName
      let args ← readArgs fuel
      return .construct (← freshNode (t.span.merge (← previousSpan))) name args
    | .name name =>
      if ← at? (.symbol .lparen) then
        let args ← readArgs fuel
        return .call (← freshNode (t.span.merge (← previousSpan))) name args
      else return .var (← freshNode t.span) name
    | kind => throw ⟨.unexpectedToken .expression kind, t.span⟩

/-- Read parenthesised arguments. -/
def readArgs : Nat → Reader (List Expr)
  | 0 => exhausted
  | fuel + 1 => do
    let _ ← expectSymbol .lparen
    let args ← readArgList fuel
    let _ ← expectSymbol .rparen
    return args

/-- Read arguments separated by commas. -/
def readArgList : Nat → Reader (List Expr)
  | 0 => exhausted
  | fuel + 1 => listTurn (readExprAbove fuel 0) (readArgList fuel)

end

/-- Read an expression. -/
def readExpr (fuel : Nat) : Reader Expr := readExprAbove fuel 0

end StructLang.Tree
