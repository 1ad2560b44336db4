import StructLang.Proofs.Grammar

/-!
# How programs are spelled

Which token lists spell a program. A program has many spellings: any expression may stand in
parentheses, a comma may follow the last argument, parameter or field, and the first argument of a call
may stand in front of it as a receiver. Operands that are themselves operators stand in parentheses, so
that no spelling rests on how tightly operators bind, and a semicolon follows each statement.

`Program.bare` is a program without its node numbers and places, which no spelling tells.
-/

namespace StructLang

/-! ## Trees without numbers and places -/

mutual

/-- An expression without numbers and places. -/
def Expr.bare : Expr → Expr
  | .integer _ value long => .integer default value long
  | .float _ value single => .float default value single
  | .bool _ value => .bool default value
  | .text _ value => .text default value
  | .var _ name => .var default name
  | .unary _ op e => .unary default op e.bare
  | .binary _ op l r => .binary default op l.bare r.bare
  | .cast _ e target => .cast default e.bare target
  | .call _ name args => .call default name (bareAll args)
  | .construct _ name args => .construct default name (bareAll args)
  | .access _ e member => .access default e.bare member

def bareAll : List Expr → List Expr
  | [] => []
  | e :: es => e.bare :: bareAll es

end

mutual

/-- A statement without numbers and places. -/
def Stmt.bare : Stmt → Stmt
  | .declare d => .declare ⟨default, d.name, d.annotation, d.isMutable, d.init.map Expr.bare⟩
  | .assign _ name e => .assign default name e.bare
  | .branch _ cond t none => .branch default cond.bare t.bare none
  | .branch _ cond t (some e) => .branch default cond.bare t.bare (some e.bare)
  | .ret _ e => .ret default (e.map Expr.bare)
  | .expr e => .expr e.bare

def bareStmts : List Stmt → List Stmt
  | [] => []
  | s :: rest => s.bare :: bareStmts rest

def Block.bare : Block → Block
  | .mk _ stmts => .mk default (bareStmts stmts)

end

def TypedName.bare (t : TypedName) : TypedName := { t with span := default }

/-- An item without numbers and places; a module gets its name only when it is loaded. -/
def Item.bare : Item → Item
  | .importing d => .importing { d with span := default }
  | .struct d => .struct { d with fields := d.fields.map TypedName.bare, span := default }
  | .fn f =>
    .fn ⟨⟨f.name, "", f.receiver, f.params.map TypedName.bare, f.ret, default⟩, f.body.bare⟩
  | .foreign d => .foreign { d with params := d.params.map TypedName.bare, span := default }

def Program.bare (p : Program) : Program := ⟨p.items.map Item.bare⟩

/-! ## Single tokens -/

def UnaryOp.mark : UnaryOp → Symbol
  | neg => .minus
  | not => .bang
  | bitNot => .tilde

/-- The mark of an operator between its operands. -/
def BinaryOp.mark : BinaryOp → Symbol
  | add => .plus
  | sub => .minus
  | mul => .star
  | div => .slash
  | mod => .percent
  | eq => .eq
  | ne => .ne
  | lt => .lt
  | le => .le
  | gt => .gt
  | ge => .ge
  | bitAnd => .amp
  | bitOr => .pipe
  | bitXor => .caret
  | shl => .shl
  | shr => .shr

/-- The token of a type; the two marks for unknown types have none. -/
def Ty.token? : Ty → Option Token.Kind
  | void => some (.keyword .voidKw)
  | bool => some (.keyword .boolKw)
  | string => some (.keyword .stringKw)
  | i32 => some (.keyword .i32Kw)
  | i64 => some (.keyword .i64Kw)
  | f32 => some (.keyword .f32Kw)
  | f64 => some (.keyword .f64Kw)
  | struct name => some (.name name)
  | unknown | error => none

theorem Ty.exists_token {ty : Ty} (h : ty.Proper) : ∃ k, ty.token? = some k := by
  cases ty with
  | unknown => exact absurd rfl h.1
  | error => exact absurd rfl h.2
  | _ => exact ⟨_, rfl⟩

/-- The token of a literal or a variable. -/
def Expr.leaf? : Expr → Option Token.Kind
  | integer _ value long => some (.integer value long)
  | float _ value single => some (.float value single)
  | bool _ value => some (.keyword (if value then .trueKw else .falseKw))
  | text _ value => some (.text value)
  | var _ name => some (.name name)
  | _ => none

/-! ## Expressions -/

/-- What tokens of an expression can stand for: an expression, an operand (also a receiver or an accessed
object), or the arguments of a call. -/
inductive Phrase where
  | expr (e : Expr)
  | operand (e : Expr)
  | args (es : List Expr)

/-- The tokens spell the phrase. -/
inductive Phrase.Spelled : Phrase → List Token.Kind → Prop where
  | leaf {e : Expr} {k : Token.Kind} (h : e.leaf? = some k) : Spelled (.operand e) [k]
  | paren {e : Expr} {ks : List Token.Kind} (h : Spelled (.expr e) ks) :
    Spelled (.operand e) (.symbol .lparen :: (ks ++ [.symbol .rparen]))
  | call {n : Node} {f : String} {es : List Expr} {ks : List Token.Kind}
      (h : Spelled (.args es) ks) :
    Spelled (.operand (.call n f es)) (.name f :: .symbol .lparen :: (ks ++ [.symbol .rparen]))
  | method {n : Node} {f : String} {e : Expr} {es : List Expr} {ks ks' : List Token.Kind}
      (he : Spelled (.operand e) ks) (hes : Spelled (.args es) ks') :
    Spelled (.operand (.call n f (e :: es)))
      (ks ++ .symbol .dot :: .name f :: .symbol .lparen :: (ks' ++ [.symbol .rparen]))
  | construct {n : Node} {s : String} {es : List Expr} {ks : List Token.Kind}
      (h : Spelled (.args es) ks) :
    Spelled (.operand (.construct n s es))
      (.keyword .newKw :: .name s :: .symbol .lparen :: (ks ++ [.symbol .rparen]))
  | access {n : Node} {e : Expr} {member : String} {ks : List Token.Kind}
      (h : Spelled (.operand e) ks) :
    Spelled (.operand (.access n e member)) (ks ++ [.symbol .dot, .name member])
  | plain {e : Expr} {ks : List Token.Kind} (h : Spelled (.operand e) ks) : Spelled (.expr e) ks
  | unary {n : Node} {op : UnaryOp} {e : Expr} {ks : List Token.Kind}
      (h : Spelled (.operand e) ks) : Spelled (.expr (.unary n op e)) (.symbol op.mark :: ks)
  | binary {n : Node} {op : BinaryOp} {l r : Expr} {ks ks' : List Token.Kind}
      (hl : Spelled (.operand l) ks) (hr : Spelled (.operand r) ks') :
    Spelled (.expr (.binary n op l r)) (ks ++ .symbol op.mark :: ks')
  | cast {n : Node} {e : Expr} {target : Ty} {k : Token.Kind} {ks : List Token.Kind}
      (h : Spelled (.operand e) ks) (hk : target.token? = some k) :
    Spelled (.expr (.cast n e target)) (ks ++ [.keyword .asKw, k])
  | noArgs : Spelled (.args []) []
  | lastArg {e : Expr} {ks : List Token.Kind} (h : Spelled (.expr e) ks) : Spelled (.args [e]) ks
  | consArg {e : Expr} {es : List Expr} {ks ks' : List Token.Kind} (he : Spelled (.expr e) ks)
      (hes : Spelled (.args es) ks') : Spelled (.args (e :: es)) (ks ++ .symbol .comma :: ks')

/-! ## Statements -/

/-- A part that may be missing, behind the token that announces it. -/
inductive Announced {α : Type} (mark : Token.Kind) (R : α → List Token.Kind → Prop) :
    Option α → List Token.Kind → Prop where
  | none : Announced mark R none []
  | some {a : α} {ks : List Token.Kind} (h : R a ks) : Announced mark R (some a) (mark :: ks)

/-- Things separated by commas; a comma may follow the last one. -/
inductive Listed {α : Type} (R : α → List Token.Kind → Prop) : List α → List Token.Kind → Prop where
  | nil : Listed R [] []
  | last {a : α} {ks : List Token.Kind} (h : R a ks) : Listed R [a] ks
  | cons {a : α} {as : List α} {ks ks' : List Token.Kind} (ha : R a ks) (has : Listed R as ks') :
    Listed R (a :: as) (ks ++ .symbol .comma :: ks')

def Ty.Spelled (ty : Ty) (ks : List Token.Kind) : Prop := ∃ k, ty.token? = some k ∧ ks = [k]

def TypedName.Spelled (t : TypedName) (ks : List Token.Kind) : Prop :=
  ∃ k, t.ty.token? = some k ∧ ks = [.name t.name, .symbol .colon, k]

def Expr.Spelled (e : Expr) (ks : List Token.Kind) : Prop := Phrase.Spelled (.expr e) ks

/-- What tokens of a body can stand for: a statement, statements with their semicolons, or a block. -/
inductive Clause where
  | stmt (s : Stmt)
  | stmts (ss : List Stmt)
  | block (b : Block)

inductive Clause.Spelled : Clause → List Token.Kind → Prop where
  | declare {d : VarDecl} {ks ks' : List Token.Kind}
      (hty : Announced (.symbol .colon) Ty.Spelled d.annotation ks)
      (hinit : Announced (.symbol .assign) Expr.Spelled d.init ks') :
    Spelled (.stmt (.declare d)) (.keyword .letKw ::
      ((if d.isMutable then [.keyword .mutKw] else []) ++ .name d.name :: (ks ++ ks')))
  | assign {span : Span} {name : String} {e : Expr} {ks : List Token.Kind} (h : e.Spelled ks) :
    Spelled (.stmt (.assign span name e)) (.name name :: .symbol .assign :: ks)
  | branch {span : Span} {cond : Expr} {t : Block} {ks ks' : List Token.Kind}
      (hcond : cond.Spelled ks) (ht : Spelled (.block t) ks') :
    Spelled (.stmt (.branch span cond t none)) (.keyword .ifKw :: (ks ++ ks'))
  | branchElse {span : Span} {cond : Expr} {t e : Block} {ks ks' ks'' : List Token.Kind}
      (hcond : cond.Spelled ks) (ht : Spelled (.block t) ks') (he : Spelled (.block e) ks'') :
    Spelled (.stmt (.branch span cond t (some e)))
      (.keyword .ifKw :: (ks ++ (ks' ++ .keyword .elseKw :: ks'')))
  | retNone {span : Span} : Spelled (.stmt (.ret span none)) [.keyword .returnKw]
  | ret {span : Span} {e : Expr} {ks : List Token.Kind} (h : e.Spelled ks) :
    Spelled (.stmt (.ret span (some e))) (.keyword .returnKw :: ks)
  | expr {e : Expr} {ks : List Token.Kind} (h : e.Spelled ks) : Spelled (.stmt (.expr e)) ks
  | noStmts : Spelled (.stmts []) []
  | consStmt {s : Stmt} {ss : List Stmt} {ks ks' : List Token.Kind} (hs : Spelled (.stmt s) ks)
      (hss : Spelled (.stmts ss) ks') : Spelled (.stmts (s :: ss)) (ks ++ .symbol .semi :: ks')
  | block {n : Node} {ss : List Stmt} {ks : List Token.Kind} (h : Spelled (.stmts ss) ks) :
    Spelled (.block (.mk n ss)) (.symbol .lbrace :: (ks ++ [.symbol .rbrace]))

/-! ## Programs -/

/-- The tokens spell parameters in parentheses and a result type. -/
inductive HeaderSpelled (params : List TypedName) (ret : Ty) : List Token.Kind → Prop where
  | mk {ks : List Token.Kind} {k : Token.Kind} (hparams : Listed TypedName.Spelled params ks)
      (hret : ret.token? = some k) :
    HeaderSpelled params ret
      (.symbol .lparen :: (ks ++ [.symbol .rparen, .symbol .arrow, k]))

/-- The tokens spell the struct that a function extends, with the dot behind it. -/
inductive ReceiverSpelled : Option Ty → List Token.Kind → Prop where
  | none : ReceiverSpelled none []
  | struct (name : String) : ReceiverSpelled (some (.struct name)) [.name name, .symbol .dot]

inductive Item.Spelled : Item → List Token.Kind → Prop where
  | importing {span : Span} (first : String) (rest : List String) :
    Spelled (.importing ⟨first :: rest, span⟩)
      (.keyword .importKw :: .name first :: rest.flatMap fun part => [.symbol .dot, .name part])
  | struct {d : StructDef} {ks : List Token.Kind} (h : Listed TypedName.Spelled d.fields ks) :
    Spelled (.struct d)
      (.keyword .structKw :: .name d.name :: .symbol .lbrace :: (ks ++ [.symbol .rbrace]))
  | foreign {d : ForeignDecl} {ks : List Token.Kind} (h : HeaderSpelled d.params d.ret ks) :
    Spelled (.foreign d) (.keyword .foreignKw :: .keyword .fnKw :: .name d.name :: ks)
  | fn {f : FnDef} {ks ks' ks'' : List Token.Kind} (hreceiver : ReceiverSpelled f.receiver ks)
      (hheader : HeaderSpelled f.params f.ret ks') (hbody : Clause.Spelled (.block f.body) ks'') :
    Spelled (.fn f) (.keyword .fnKw :: (ks ++ .name f.name :: (ks' ++ ks'')))

/-- The tokens spell the items one after the other. -/
inductive ItemsSpelled : List Item → List Token.Kind → Prop where
  | nil : ItemsSpelled [] []
  | cons {i : Item} {is : List Item} {ks ks' : List Token.Kind} (hi : i.Spelled ks)
      (his : ItemsSpelled is ks') : ItemsSpelled (i :: is) (ks ++ ks')

def Program.Spelled (p : Program) (ks : List Token.Kind) : Prop := ItemsSpelled p.items ks

/-! ## Which programs have a spelling -/

mutual

/-- Conversions in the expression are to types that have a token. -/
def Expr.Spellable : Expr → Prop
  | .integer .. | .float .. | .bool .. | .text .. | .var .. => True
  | .unary _ _ e | .access _ e _ => e.Spellable
  | .binary _ _ l r => l.Spellable ∧ r.Spellable
  | .cast _ e target => e.Spellable ∧ target.Proper
  | .call _ _ args | .construct _ _ args => SpellableAll args

def SpellableAll : List Expr → Prop
  | [] => True
  | e :: es => e.Spellable ∧ SpellableAll es

end

mutual

/-- Types in the statement have a token. -/
def Stmt.Spellable : Stmt → Prop
  | .declare d => (∀ ty ∈ d.annotation, ty.Proper) ∧ ∀ e ∈ d.init, e.Spellable
  | .assign _ _ e | .expr e => e.Spellable
  | .branch _ cond t none => cond.Spellable ∧ t.Spellable
  | .branch _ cond t (some e) => cond.Spellable ∧ t.Spellable ∧ e.Spellable
  | .ret _ value => ∀ e ∈ value, e.Spellable

def SpellableStmts : List Stmt → Prop
  | [] => True
  | s :: rest => s.Spellable ∧ SpellableStmts rest

def Block.Spellable : Block → Prop
  | .mk _ stmts => SpellableStmts stmts

end

/-- Types in the item have a token, an import names something and a receiver is a struct. -/
def Item.Spellable : Item → Prop
  | .importing d => d.path ≠ []
  | .struct d => ∀ f ∈ d.fields, f.ty.Proper
  | .foreign d => (∀ p ∈ d.params, p.ty.Proper) ∧ d.ret.Proper
  | .fn f => (∀ ty ∈ f.receiver, ∃ name, ty = .struct name) ∧ (∀ p ∈ f.params, p.ty.Proper) ∧
      f.ret.Proper ∧ f.body.Spellable

def Program.Spellable (p : Program) : Prop := ∀ i ∈ p.items, i.Spellable

section

variable {α : Type}

theorem exists_announced (mark : Token.Kind) {o : Option α} (h : ∀ a ∈ o, ∃ ks, R a ks) :
    ∃ ks, Announced mark R o ks := by
  cases o with
  | none => exact ⟨[], .none⟩
  | some a =>
    obtain ⟨ks, hks⟩ := h a rfl
    exact ⟨mark :: ks, .some hks⟩

theorem exists_listed (h : ∀ a ∈ as, ∃ ks, R a ks) : ∃ ks, Listed R as ks := by
  induction as with
  | nil => exact ⟨[], .nil⟩
  | cons a as ih =>
    obtain ⟨ha, has⟩ := List.forall_mem_cons.mp h
    obtain ⟨ks, hks⟩ := ha
    obtain ⟨ks', hks'⟩ := ih has
    exact ⟨_, .cons hks hks'⟩

end

mutual

theorem Expr.exists_operand (e : Expr) (h : e.Spellable) :
    ∃ ks, Phrase.Spelled (.operand e) ks := by
  cases e with
  | integer | float | bool | text | var => exact ⟨_, .leaf rfl⟩
  | unary n op e =>
    obtain ⟨ks, hks⟩ := e.exists_operand h
    exact ⟨_, .paren (.unary hks)⟩
  | binary n op l r =>
    obtain ⟨ks, hks⟩ := l.exists_operand h.1
    obtain ⟨ks', hks'⟩ := r.exists_operand h.2
    exact ⟨_, .paren (.binary hks hks')⟩
  | cast n e target =>
    obtain ⟨ks, hks⟩ := e.exists_operand h.1
    obtain ⟨k, hk⟩ := Ty.exists_token h.2
    exact ⟨_, .paren (.cast hks hk)⟩
  | call n name args =>
    obtain ⟨ks, hks⟩ := exists_args args h
    exact ⟨_, .call hks⟩
  | construct n name args =>
    obtain ⟨ks, hks⟩ := exists_args args h
    exact ⟨_, .construct hks⟩
  | access n e member =>
    obtain ⟨ks, hks⟩ := e.exists_operand h
    exact ⟨_, .access hks⟩

theorem exists_args (es : List Expr) (h : SpellableAll es) :
    ∃ ks, Phrase.Spelled (.args es) ks := by
  cases es with
  | nil => exact ⟨[], .noArgs⟩
  | cons e es =>
    obtain ⟨ks, hks⟩ := e.exists_operand h.1
    obtain ⟨ks', hks'⟩ := exists_args es h.2
    exact ⟨_, .consArg (.plain hks) hks'⟩

end

theorem Expr.exists_spelled {e : Expr} (h : e.Spellable) : ∃ ks, e.Spelled ks := by
  obtain ⟨ks, hks⟩ := e.exists_operand h
  exact ⟨ks, .plain hks⟩

mutual

theorem Stmt.exists_spelled (s : Stmt) (h : s.Spellable) : ∃ ks, Clause.Spelled (.stmt s) ks := by
  cases s with
  | declare d =>
    obtain ⟨ks, hks⟩ := @exists_announced _ Ty.Spelled (.symbol .colon) _ fun ty hty => by
      obtain ⟨k, hk⟩ := Ty.exists_token (h.1 ty hty)
      exact ⟨[k], k, hk, rfl⟩
    obtain ⟨ks', hks'⟩ := exists_announced (.symbol .assign) fun e he =>
      Expr.exists_spelled (h.2 e he)
    exact ⟨_, .declare hks hks'⟩
  | assign span name e =>
    obtain ⟨ks, hks⟩ := e.exists_spelled h
    exact ⟨_, .assign hks⟩
  | branch span cond t e =>
    cases e with
    | none =>
      obtain ⟨ks, hks⟩ := cond.exists_spelled h.1
      obtain ⟨ks', hks'⟩ := t.exists_spelled h.2
      exact ⟨_, .branch hks hks'⟩
    | some e =>
      obtain ⟨ks, hks⟩ := cond.exists_spelled h.1
      obtain ⟨ks', hks'⟩ := t.exists_spelled h.2.1
      obtain ⟨ks'', hks''⟩ := e.exists_spelled h.2.2
      exact ⟨_, .branchElse hks hks' hks''⟩
  | ret span e =>
    cases e with
    | none => exact ⟨_, .retNone⟩
    | some e =>
      obtain ⟨ks, hks⟩ := Expr.exists_spelled (h e rfl)
      exact ⟨_, .ret hks⟩
  | expr e =>
    obtain ⟨ks, hks⟩ := e.exists_spelled h
    exact ⟨_, .expr hks⟩

theorem exists_stmts (ss : List Stmt) (h : SpellableStmts ss) :
    ∃ ks, Clause.Spelled (.stmts ss) ks := by
  cases ss with
  | nil => exact ⟨[], .noStmts⟩
  | cons s ss =>
    obtain ⟨ks, hks⟩ := s.exists_spelled h.1
    obtain ⟨ks', hks'⟩ := exists_stmts ss h.2
    exact ⟨_, .consStmt hks hks'⟩

theorem Block.exists_spelled (b : Block) (h : b.Spellable) :
    ∃ ks, Clause.Spelled (.block b) ks := by
  cases b with
  | mk n ss =>
    obtain ⟨ks, hks⟩ := exists_stmts ss h
    exact ⟨_, .block hks⟩

end

theorem exists_typedNames (h : ∀ t ∈ ts, t.ty.Proper) : ∃ ks, Listed TypedName.Spelled ts ks := by
  refine exists_listed fun t ht => ?_
  obtain ⟨k, hk⟩ := Ty.exists_token (h t ht)
  exact ⟨_, k, hk, rfl⟩

theorem exists_header (hparams : ∀ p ∈ params, p.ty.Proper) (hret : ret.Proper) :
    ∃ ks, HeaderSpelled params ret ks := by
  obtain ⟨ks, hks⟩ := exists_typedNames hparams
  obtain ⟨k, hk⟩ := Ty.exists_token hret
  exact ⟨_, .mk hks hk⟩

theorem Item.exists_spelled {i : Item} (h : i.Spellable) : ∃ ks, i.Spelled ks := by
  cases i with
  | importing d =>
    obtain ⟨path, span⟩ := d
    cases path with
    | nil => exact absurd rfl h
    | cons first rest => exact ⟨_, .importing first rest⟩
  | struct d =>
    obtain ⟨ks, hks⟩ := exists_typedNames h
    exact ⟨_, .struct hks⟩
  | foreign d =>
    obtain ⟨ks, hks⟩ := exists_header h.1 h.2
    exact ⟨_, .foreign hks⟩
  | fn f =>
    obtain ⟨hreceiver, hparams, hret, hbody⟩ := h
    obtain ⟨ks, hks⟩ : ∃ ks, ReceiverSpelled f.receiver ks := by
      cases hr : f.receiver with
      | none => exact ⟨[], .none⟩
      | some ty =>
        obtain ⟨name, rfl⟩ := hreceiver ty hr
        exact ⟨_, .struct name⟩
    obtain ⟨ks', hks'⟩ := exists_header hparams hret
    obtain ⟨ks'', hks''⟩ := f.body.exists_spelled hbody
    exact ⟨_, .fn hks hks' hks''⟩

/-- A program with proper types, struct receivers and imports that name something has a spelling. -/
theorem Program.exists_spelled {p : Program} (h : p.Spellable) : ∃ ks, p.Spelled ks := by
  obtain ⟨items⟩ := p
  induction items with
  | nil => exact ⟨[], .nil⟩
  | cons i is ih =>
    obtain ⟨hi, his⟩ := List.forall_mem_cons.mp h
    obtain ⟨ks, hks⟩ := i.exists_spelled hi
    obtain ⟨ks', hks'⟩ := ih his
    exact ⟨_, .cons hks hks'⟩

end StructLang
