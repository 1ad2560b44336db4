import StructLang.Proofs.Spelling

/-!
# Operators and how they group

Outside of parentheses an expression is a row of terms with operators between them. A grouping of the row
applies each operator to what stands on its two sides; the strengths of the operators leave exactly one
that is `Grouped`, which `Row.group` builds from left to right. `Form.Spelled` says which tokens spell the
terms, where any row may stand in parentheses or as an argument.
-/

namespace StructLang

def BinaryOp.strength (op : BinaryOp) : Nat := (Token.Kind.precedence? (.symbol op.mark)).getD 0

theorem precedence?_mark (op : BinaryOp) :
    Token.Kind.precedence? (.symbol op.mark) = some op.strength := by
  cases op <;> rfl

theorem BinaryOp.strength_lt (op : BinaryOp) : op.strength < 11 := by
  cases op <;> decide

/-- An operand, the tokens that spell it, and the conversions behind it. -/
structure Term where
  operand : Expr
  spelling : List Token.Kind
  casts : List Ty

namespace Term

def expr (u : Term) : Expr := u.casts.foldl (.cast default) u.operand

def castTokens (casts : List Ty) : List Token.Kind :=
  casts.flatMap fun ty => .keyword .asKw :: ty.token?.toList

def tokens (u : Term) : List Token.Kind := u.spelling ++ castTokens u.casts

/-- The token would go on with the operand if it came next: a dot with a member, and behind a name a
parenthesis with arguments. -/
def ContinuedBy (u : Term) (k : Token.Kind) : Prop :=
  u.casts = [] ∧
    (k = .symbol .dot ∨ k = .symbol .lparen ∧ ∃ s, u.spelling.getLast? = some (.name s))

end Term

/-- Terms with operators between them. -/
@[ext] structure Row where
  first : Term
  others : List (BinaryOp × Term)

namespace Row

def terms (r : Row) : List Term := r.first :: r.others.map Prod.snd

def last (r : Row) : Term := (r.others.getLast?.map Prod.snd).getD r.first

def tokens (r : Row) : List Token.Kind :=
  r.first.tokens ++ r.others.flatMap fun x => .symbol x.1.mark :: x.2.tokens

end Row

/-- A way to group a row: every operator has two operands. -/
inductive Grouping where
  | term (u : Term)
  | apply (op : BinaryOp) (l r : Grouping)

namespace Grouping

def row : Grouping → Row
  | term u => ⟨u, []⟩
  | apply op l r => ⟨l.row.first, l.row.others ++ (op, r.row.first) :: r.row.others⟩

def expr : Grouping → Expr
  | term u => u.expr
  | apply op l r => .binary default op l.expr r.expr

def top? : Grouping → Option BinaryOp
  | term _ => none
  | apply op _ _ => some op

/-- An operator on the left side of another binds at least as tightly, one on its right side more
tightly. -/
def Grouped : Grouping → Prop
  | term _ => True
  | apply op l r => (∀ o ∈ l.top?, op.strength ≤ o.strength) ∧
      (∀ o ∈ r.top?, op.strength < o.strength) ∧ l.Grouped ∧ r.Grouped

/-- One more operator and term behind the row: the operator takes what binds at least as tightly. -/
def snoc : Grouping → BinaryOp × Term → Grouping
  | term u, x => apply x.1 (term u) (term x.2)
  | apply op l r, x =>
    if op.strength < x.1.strength then apply op l (r.snoc x) else apply x.1 (apply op l r) (term x.2)

variable {g : Grouping}

theorem terms_apply : (apply op l r).row.terms = l.row.terms ++ r.row.terms := by
  simp [row, Row.terms]

theorem last_apply : (apply op l r).row.last = r.row.last := by
  cases h : r.row.others <;> simp [row, Row.last, h, List.getLast?_append, List.getLast?_cons]

theorem tokens_apply :
    (apply op l r).row.tokens = l.row.tokens ++ .symbol op.mark :: r.row.tokens := by
  simp [row, Row.tokens]

theorem row_snoc (g : Grouping) (x : BinaryOp × Term) :
    (g.snoc x).row = ⟨g.row.first, g.row.others ++ [x]⟩ := by
  induction g with
  | term u => rfl
  | apply op l r _ ihr =>
    unfold snoc
    split
    · simp [row, ihr]
    · simp [row]

theorem top_snoc (h : o ∈ (g.snoc x).top?) : o = x.1 ∨ o ∈ g.top? := by
  cases g with
  | term u =>
    cases h
    exact .inl rfl
  | apply op l r =>
    unfold snoc at h
    split at h <;> cases h
    · exact .inr rfl
    · exact .inl rfl

theorem Grouped.snoc (h : g.Grouped) (x : BinaryOp × Term) : (g.snoc x).Grouped := by
  induction g with
  | term u => exact ⟨nofun, nofun, trivial, trivial⟩
  | apply op l r _ ihr =>
    obtain ⟨hl, hr, hgl, hgr⟩ := h
    unfold Grouping.snoc
    split
    · next hlt =>
      refine ⟨hl, fun o ho => ?_, hgl, ihr hgr⟩
      rcases top_snoc ho with rfl | ho
      · exact hlt
      · exact hr o ho
    · next hge =>
      refine ⟨fun o ho => ?_, nofun, ⟨hl, hr, hgl, hgr⟩, trivial⟩
      cases ho
      exact Nat.le_of_not_lt hge

theorem foldl_snoc_apply {xs : List (BinaryOp × Term)}
    (h : ∀ x ∈ xs, op.strength < x.1.strength) :
    xs.foldl Grouping.snoc (apply op l r) = apply op l (xs.foldl Grouping.snoc r) := by
  induction xs generalizing r with
  | nil => rfl
  | cons x xs ih =>
    obtain ⟨hx, hxs⟩ := List.forall_mem_cons.mp h
    rw [List.foldl_cons, List.foldl_cons, Grouping.snoc, if_pos hx, ih hxs]

theorem snoc_of_top (h : ∀ o ∈ l.top?, op.strength ≤ o.strength) :
    l.snoc (op, u) = apply op l (term u) := by
  cases l with
  | term v => rfl
  | apply o l r => rw [Grouping.snoc, if_neg (Nat.not_lt.mpr (h o rfl))]

theorem Grouped.lt_of_mem (h : g.Grouped) (htop : ∀ o ∈ g.top?, n < o.strength)
    (hx : x ∈ g.row.others) : n < x.1.strength := by
  induction g with
  | term u => cases hx
  | apply op l r ihl ihr =>
    obtain ⟨hl, hr, hgl, hgr⟩ := h
    have hop : n < op.strength := htop op rfl
    rcases List.mem_append.mp hx with hx | hx
    · exact ihl hgl (fun o ho => Nat.lt_of_lt_of_le hop (hl o ho)) hx
    rcases List.mem_cons.mp hx with rfl | hx
    · exact hop
    · exact ihr hgr (fun o ho => Nat.lt_trans hop (hr o ho)) hx

end Grouping

def Row.group (r : Row) : Grouping := r.others.foldl Grouping.snoc (.term r.first)

theorem Row.grouped_group (r : Row) : r.group.Grouped := by
  have go (xs : List (BinaryOp × Term)) {g : Grouping} (h : g.Grouped) :
      (xs.foldl Grouping.snoc g).Grouped := by
    induction xs generalizing g with
    | nil => exact h
    | cons x xs ih => exact ih (h.snoc x)
  exact go r.others trivial

theorem Row.row_group (r : Row) : r.group.row = r := by
  have go (xs : List (BinaryOp × Term)) (g : Grouping) :
      (xs.foldl Grouping.snoc g).row = ⟨g.row.first, g.row.others ++ xs⟩ := by
    induction xs generalizing g with
    | nil => simp
    | cons x xs ih => rw [List.foldl_cons, ih, Grouping.row_snoc]; simp
  exact (go r.others (.term r.first)).trans (by simp [Grouping.row])

theorem Grouping.Grouped.group_row {g : Grouping} (h : g.Grouped) : g.row.group = g := by
  induction g with
  | term u => rfl
  | apply op l r ihl ihr =>
    obtain ⟨hl, hr, hgl, hgr⟩ := h
    -- The left side comes out first, the operator takes all of it, and the rest stays on the right.
    have hleft : l.row.others.foldl Grouping.snoc (.term l.row.first) = l := ihl hgl
    have hright : r.row.others.foldl Grouping.snoc (.term r.row.first) = r := ihr hgr
    rw [Row.group, row, List.foldl_append, List.foldl_cons, hleft, snoc_of_top hl,
      foldl_snoc_apply fun x hx => hgr.lt_of_mem hr hx, hright]

/-! ## Spellings -/

/-- What tokens can stand for: an object, which members can follow, an operand, which unary operators
can stand before, a grouped row, or the arguments of a call. -/
inductive Form where
  | object (e : Expr)
  | operand (e : Expr)
  | grouping (g : Grouping)
  | args (es : List Expr)

/-- The tokens spell the form; numbers and places are left out. -/
inductive Form.Spelled : Form → List Token.Kind → Prop where
  | leaf {e : Expr} {k : Token.Kind} (h : e.leaf? = some k) : Spelled (.object e.bare) [k]
  | paren {g : Grouping} {ks : List Token.Kind} (h : Spelled (.grouping g) ks) :
    Spelled (.object g.expr) (.symbol .lparen :: (ks ++ [.symbol .rparen]))
  | call {f : String} {es : List Expr} {ks : List Token.Kind} (h : Spelled (.args es) ks) :
    Spelled (.object (.call default f es))
      (.name f :: .symbol .lparen :: (ks ++ [.symbol .rparen]))
  | method {f : String} {e : Expr} {es : List Expr} {ks ks' : List Token.Kind}
      (he : Spelled (.object e) ks) (hes : Spelled (.args es) ks') :
    Spelled (.object (.call default f (e :: es)))
      (ks ++ .symbol .dot :: .name f :: .symbol .lparen :: (ks' ++ [.symbol .rparen]))
  | construct {s : String} {es : List Expr} {ks : List Token.Kind} (h : Spelled (.args es) ks) :
    Spelled (.object (.construct default s es))
      (.keyword .newKw :: .name s :: .symbol .lparen :: (ks ++ [.symbol .rparen]))
  | access {e : Expr} {member : String} {ks : List Token.Kind} (h : Spelled (.object e) ks) :
    Spelled (.object (.access default e member)) (ks ++ [.symbol .dot, .name member])
  | plain {e : Expr} {ks : List Token.Kind} (h : Spelled (.object e) ks) : Spelled (.operand e) ks
  | unary {op : UnaryOp} {e : Expr} {ks : List Token.Kind} (h : Spelled (.operand e) ks) :
    Spelled (.operand (.unary default op e)) (.symbol op.mark :: ks)
  | row {g : Grouping} (hg : g.Grouped)
      (h : ∀ u ∈ g.row.terms, Spelled (.operand u.operand) u.spelling)
      (hcasts : ∀ u ∈ g.row.terms, ∀ ty ∈ u.casts, ty.Proper) :
    Spelled (.grouping g) g.row.tokens
  | noArgs : Spelled (.args []) []
  | lastArg {g : Grouping} {ks : List Token.Kind} (h : Spelled (.grouping g) ks) :
    Spelled (.args [g.expr]) ks
  | consArg {g : Grouping} {es : List Expr} {ks ks' : List Token.Kind}
      (h : Spelled (.grouping g) ks) (hes : Spelled (.args es) ks') :
    Spelled (.args (g.expr :: es)) (ks ++ .symbol .comma :: ks')

/-- The tokens of the term spell its operand and conversions to types that have a token. -/
def Term.Spelled (u : Term) : Prop :=
  Form.Spelled (.operand u.operand) u.spelling ∧ ∀ ty ∈ u.casts, ty.Proper

theorem Form.Spelled.term (h : u.Spelled) : Form.Spelled (.grouping (.term u)) u.tokens := by
  have hrow := Form.Spelled.row (g := .term u) trivial (by simpa [Grouping.row, Row.terms] using h.1)
    (by simpa [Grouping.row, Row.terms] using h.2)
  simpa [Grouping.row, Row.tokens] using hrow

theorem Form.Spelled.alone (h : Form.Spelled (.operand e) ks) :
    Form.Spelled (.grouping (.term ⟨e, ks, []⟩)) ks := by
  simpa [Term.tokens, Term.castTokens] using Form.Spelled.term (u := ⟨e, ks, []⟩) ⟨h, nofun⟩

/-- What a spelling in which operands stand in parentheses is a case of. -/
def Phrase.Formed : Phrase → List Token.Kind → Prop
  | .expr e, ks => ∃ g : Grouping, g.expr = e.bare ∧ Form.Spelled (.grouping g) ks
  | .operand e, ks => Form.Spelled (.object e.bare) ks
  | .args es, ks => Form.Spelled (.args (bareAll es)) ks

theorem Phrase.Spelled.formed {ph : Phrase} (h : ph.Spelled ks) : ph.Formed ks := by
  induction h with
  | leaf h => exact .leaf h
  | paren _ ih =>
    obtain ⟨g, hg, hks⟩ := ih
    simpa only [Formed, hg] using hks.paren
  | call _ ih => simpa only [Formed, Expr.bare] using Form.Spelled.call ih
  | method _ _ ihe ihes => simpa only [Formed, Expr.bare, bareAll] using Form.Spelled.method ihe ihes
  | construct _ ih => simpa only [Formed, Expr.bare] using Form.Spelled.construct ih
  | access _ ih => simpa only [Formed, Expr.bare] using Form.Spelled.access ih
  | plain _ ih => exact ⟨_, rfl, (Form.Spelled.plain ih).alone⟩
  | unary _ ih =>
    exact ⟨_, by simp [Grouping.expr, Term.expr, Expr.bare], (Form.Spelled.plain ih).unary.alone⟩
  | @binary n op l r ks ks' _ _ ihl ihr =>
    refine ⟨.apply op (.term ⟨l.bare, ks, []⟩) (.term ⟨r.bare, ks', []⟩),
      by simp [Grouping.expr, Term.expr, Expr.bare], ?_⟩
    have hrow := Form.Spelled.row (g := .apply op (.term ⟨l.bare, ks, []⟩) (.term ⟨r.bare, ks', []⟩))
      ⟨nofun, nofun, trivial, trivial⟩
      (by simpa [Grouping.row, Row.terms] using ⟨.plain ihl, .plain ihr⟩)
      (by simp [Grouping.row, Row.terms])
    simpa [Grouping.row, Row.tokens, Term.tokens, Term.castTokens] using hrow
  | @cast n e target k ks _ hk ih =>
    refine ⟨.term ⟨e.bare, ks, [target]⟩, by simp [Grouping.expr, Term.expr, Expr.bare], ?_⟩
    have hproper : target.Proper := by constructor <;> rintro rfl <;> cases hk
    have hterm := Form.Spelled.term (u := ⟨e.bare, ks, [target]⟩) ⟨.plain ih, by simpa using hproper⟩
    simpa [Term.tokens, Term.castTokens, hk] using hterm
  | noArgs => exact .noArgs
  | lastArg _ ih =>
    obtain ⟨g, hg, hks⟩ := ih
    simpa only [Formed, bareAll, hg] using hks.lastArg
  | consArg _ _ ihe ihes =>
    obtain ⟨g, hg, hks⟩ := ihe
    simpa only [Formed, bareAll, hg] using hks.consArg ihes

end StructLang
