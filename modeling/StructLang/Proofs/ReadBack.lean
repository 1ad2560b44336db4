import StructLang.Proofs.Precedence

/-!
# Reading spelled expressions back

`Gives r ks ks' P` says of a reader that in front of the tokens `ks` it succeeds, stops in front of `ks'`,
reports no mistake and returns something that satisfies `P`. Each reader has one such statement, with the
steps that it needs: four for each token of what it reads. Reading any spelling of an expression gives the
expression, up to node numbers and places.
-/

namespace StructLang

namespace Tree

def Cursor.kinds (c : Cursor) : List Token.Kind := c.ahead.map Token.kind

def headKind (ks : List Token.Kind) : Token.Kind := ks.head?.getD .endOfFile

@[simp] theorem headKind_cons (k : Token.Kind) (ks : List Token.Kind) : headKind (k :: ks) = k := rfl

theorem Cursor.kind_current (c : Cursor) : c.current.kind = headKind c.kinds := by
  unfold Cursor.current Cursor.kinds
  cases c.ahead with
  | nil | cons t rest => rfl

/-- In front of `ks` the reader succeeds without a mistake, stops in front of `ks'` and returns something
that satisfies `P`. -/
def Gives {α : Type} (r : Reader α) (ks ks' : List Token.Kind) (P : α → Prop) : Prop :=
  ∀ c : Cursor, c.kinds = ks →
    ∃ a c', r c = .ok a c' ∧ c'.kinds = ks' ∧ c'.mistakes = c.mistakes ∧ P a

namespace Gives

variable {α β : Type}

theorem pure (h : P a) : Gives (pure a) ks ks P :=
  fun c hc => ⟨a, c, rfl, hc, rfl, h⟩

theorem bind (h : Gives r ks ks1 P) (hk : ∀ a, P a → Gives (k a) ks1 ks2 Q) :
    Gives (r >>= k) ks ks2 Q := by
  intro c hc
  obtain ⟨a, c1, hr, hks1, hmistakes1, ha⟩ := h c hc
  obtain ⟨b, c2, hb, hks2, hmistakes2, hQ⟩ := hk a ha c1 hks1
  refine ⟨b, c2, ?_, hks2, hmistakes2.trans hmistakes1, hQ⟩
  change EStateM.bind r k c = _
  rw [EStateM.bind, hr]
  exact hb

theorem bind_eq (h : Gives r ks ks1 (· = a)) (hk : Gives (k a) ks1 ks2 Q) :
    Gives (r >>= k) ks ks2 Q :=
  h.bind fun _ hb => hb ▸ hk

theorem map {f : α → β} (h : Gives r ks ks1 P) (hf : ∀ a, P a → Q (f a)) :
    Gives (f <$> r) ks ks1 Q :=
  h.bind fun a ha => pure (hf a ha)

theorem mono (h : Gives r ks ks1 P) (hP : ∀ a, P a → P' a) : Gives r ks ks1 P' := by
  intro c hc
  obtain ⟨a, c', hr, hks, hmistakes, ha⟩ := h c hc
  exact ⟨a, c', hr, hks, hmistakes, hP a ha⟩

theorem of_eq (h : Gives r ks ks1 (· = a)) (ha : P a) : Gives r ks ks1 P :=
  h.mono fun _ hb => hb ▸ ha

theorem pure_bind (h : Gives (k a) ks ks1 Q) : Gives (Pure.pure a >>= k) ks ks1 Q :=
  (Gives.pure (P := (· = a)) rfl).bind_eq h

end Gives

/-! ## Single tokens -/

theorem gives_peek : Gives peek ks ks (· = headKind ks) := by
  intro c hc
  refine ⟨_, c, rfl, hc, rfl, ?_⟩
  rw [← hc]
  exact c.kind_current

theorem gives_peekSpan : Gives peekSpan ks ks fun _ => True := fun c hc => ⟨_, c, rfl, hc, rfl, trivial⟩

theorem gives_previousSpan : Gives previousSpan ks ks fun _ => True :=
  fun c hc => ⟨_, c, rfl, hc, rfl, trivial⟩

theorem gives_freshId : Gives freshId ks ks fun _ => True :=
  fun c hc => ⟨_, { c with nextId := c.nextId + 1 }, rfl, hc, rfl, trivial⟩

theorem gives_freshNode (span : Span) : Gives (freshNode span) ks ks fun _ => True :=
  gives_freshId.bind fun _ _ => .pure trivial

theorem gives_advance (k : Token.Kind) : Gives advance (k :: ks) ks (·.kind = k) := by
  intro c hc
  obtain ⟨previous, ahead, finish, nextId, mistakes⟩ := c
  cases ahead with
  | nil => cases hc
  | cons t rest =>
    obtain ⟨ht, hrest⟩ := List.cons.inj hc
    exact ⟨t, ⟨t.span, rest, finish, nextId, mistakes⟩, rfl, hrest, rfl, ht⟩

theorem gives_at? (kind : Token.Kind) : Gives (at? kind) (kind :: ks) (kind :: ks) (· = true) :=
  gives_peek.bind fun _ hk => .pure (by rw [hk, headKind_cons, beq_self_eq_true])

theorem gives_at?_other (h : headKind ks ≠ kind) : Gives (at? kind) ks ks (· = false) :=
  gives_peek.bind fun _ hk => .pure (by rw [hk, beq_false_of_ne h])

theorem gives_take? (kind : Token.Kind) : Gives (take? kind) (kind :: ks) ks (· = true) := by
  refine (gives_at? kind).bind_eq ?_
  exact (gives_advance kind).bind fun _ _ => .pure rfl

theorem gives_take?_other (h : headKind ks ≠ kind) : Gives (take? kind) ks ks (· = false) := by
  refine (gives_at?_other h).bind_eq ?_
  exact .pure rfl

theorem gives_expectSymbol (mark : Symbol) :
    Gives (expectSymbol mark) (.symbol mark :: ks) ks fun _ => True := by
  refine (gives_at? _).bind_eq ?_
  exact (gives_advance _).bind fun _ _ => .pure trivial

theorem gives_expectKeyword (word : Keyword) :
    Gives (expectKeyword word) (.keyword word :: ks) ks fun _ => True := by
  refine (gives_at? _).bind_eq ?_
  exact (gives_advance _).bind fun _ _ => .pure trivial

theorem gives_readName (s : String) : Gives readName (.name s :: ks) ks (· = s) := by
  refine gives_peek.bind_eq ?_
  exact (gives_advance _).bind fun _ _ => .pure rfl

theorem typeOf?_of_token? (h : ty.token? = some k) : typeOf? k = some ty := by
  cases ty <;> cases h <;> rfl

theorem gives_readType (h : ty.token? = some k) : Gives readType (k :: ks) ks (· = ty) := by
  refine (gives_advance k).bind fun t ht => ?_
  rw [ht, typeOf?_of_token? h]
  exact .pure rfl

theorem gives_get : Gives get ks ks fun _ => True := fun c hc => ⟨c, c, rfl, hc, rfl, trivial⟩

theorem gives_take?_ite (b : Bool) (h : headKind ks ≠ kind) :
    Gives (take? kind) ((if b then [kind] else []) ++ ks) ks (· = b) := by
  cases b with
  | true => exact gives_take? kind
  | false => exact gives_take?_other h

theorem headKind_announced_ne
    (h : Announced mark R o ks) (hmark : mark ≠ k) (hrest : headKind rest ≠ k) :
    headKind (ks ++ rest) ≠ k := by
  cases h with
  | none => exact hrest
  | some => exact hmark

theorem gives_announced {f : α → γ} (h : Announced mark R o ks) (hrest : headKind rest ≠ mark)
    (hr : ∀ a ks', ks'.length < ks.length → R a ks' → Gives r (ks' ++ rest) rest (f · = f a))
    (hk : ∀ o', o'.map f = o.map f → Gives (k o') rest rest' Q) :
    Gives (take? mark >>= fun b => if b = true then some <$> r >>= k else pure none >>= k)
      (ks ++ rest) rest' Q := by
  cases h with
  | none =>
    refine (gives_take?_other hrest).bind_eq ?_
    exact .pure_bind (hk none rfl)
  | @some a ks' hR =>
    refine (gives_take? mark).bind_eq ?_
    refine ((hr a ks' (by simp) hR).map (Q := (·.map f = some (f a))) ?_).bind hk
    intro a' ha'
    rw [Option.map_some, ha']

theorem gives_attempt (h : Gives r ks ks' P) :
    Gives (attempt r) ks ks' fun x => ∃ a, x = .ok a ∧ P a := by
  intro c hc
  obtain ⟨a, c', hr, hks, hmistakes, ha⟩ := h c hc
  refine ⟨.ok a, c', ?_, hks, hmistakes, a, rfl, ha⟩
  rw [attempt, hr]

/-! ## Expressions -/

def beginsOperand : Token.Kind → Bool
  | .integer .. | .float .. | .text _ | .name _ | .symbol .lparen | .keyword .trueKw
  | .keyword .falseKw | .keyword .newKw => true
  | _ => false

def beginsExpr (k : Token.Kind) : Bool := beginsOperand k || (unaryOp? k).isSome

theorem unaryOp?_mark (op : UnaryOp) : unaryOp? (.symbol op.mark) = some op := by
  cases op <;> rfl

theorem binaryOp?_mark (op : BinaryOp) : binaryOp? (.symbol op.mark) = some op := by
  cases op <;> rfl

theorem unaryOp?_of_beginsOperand (h : beginsOperand k = true) : unaryOp? k = none := by
  unfold beginsOperand at h
  split at h <;> first | rfl | cases h

/-- Where an expression ends: no infix operator follows and nothing that continues an operand. -/
structure Stops (rest : List Token.Kind) : Prop where
  operator : (headKind rest).precedence? = none
  dot : headKind rest ≠ .symbol .dot
  paren : headKind rest ≠ .symbol .lparen

def Unapplied (ks rest : List Token.Kind) : Prop :=
  headKind rest = .symbol .lparen → ∀ s, ks.getLast? ≠ some (.name s)

theorem gives_readMembers_done (hfuel : 0 < fuel) (h : headKind rest ≠ .symbol .dot) :
    Gives (readMembers fuel e) rest rest (· = e) := by
  rcases fuel with _ | fuel
  · omega
  rw [readMembers, membersTurn]
  refine (gives_take?_other h).bind_eq ?_
  exact .pure rfl

theorem gives_readOperators_done {e : Expr} (hfuel : 0 < fuel)
    (h : ∀ n ∈ (headKind rest).precedence?, n < least) :
    Gives (readOperators fuel least e) rest rest (· = e) := by
  rcases fuel with _ | fuel
  · omega
  rw [readOperators, operatorsTurn]
  refine gives_peek.bind_eq ?_
  split
  · exact .pure rfl
  · next n hn =>
    rw [if_pos (h n hn)]
    exact .pure rfl

end Tree

open StructLang.Tree

/-- The first token of a spelling is one that the form can begin with. -/
def Form.Begins : Form → List Token.Kind → Prop
  | .object _, ks => ∃ k rest, ks = k :: rest ∧ beginsOperand k = true
  | .operand _, ks | .grouping _, ks => ∃ k rest, ks = k :: rest ∧ beginsExpr k = true
  | .args _, _ => True

theorem Form.Spelled.begins {form : Form} (h : form.Spelled ks) : form.Begins ks := by
  induction h with
  | @leaf e k h =>
    refine ⟨k, [], rfl, ?_⟩
    cases e with
    | bool n value => cases value <;> cases h <;> rfl
    | _ => cases h <;> rfl
  | paren | call | construct => exact ⟨_, _, rfl, rfl⟩
  | method _ _ ih | access _ ih =>
    obtain ⟨k, rest, rfl, hk⟩ := ih
    exact ⟨k, _, rfl, hk⟩
  | plain _ ih =>
    obtain ⟨k, rest, rfl, hk⟩ := ih
    exact ⟨k, rest, rfl, by rw [beginsExpr, hk, Bool.true_or]⟩
  | @unary op =>
    refine ⟨_, _, rfl, ?_⟩
    rw [beginsExpr, unaryOp?_mark, Option.isSome_some, Bool.or_true]
  | @row g _ _ _ ih =>
    obtain ⟨k, rest, heq, hk⟩ := ih g.row.first List.mem_cons_self
    rw [Row.tokens, Term.tokens, heq]
    exact ⟨k, _, rfl, hk⟩
  | noArgs | lastArg | consArg => trivial

/-- Reading a spelling of the form gives it back. Behind an object the loop over members goes on: what it
gives from there on is what is given in the end. -/
def Form.ReadsBack : Form → List Token.Kind → Prop
  | .object e, ks => ∀ fuel rest rest' (Q : Expr → Prop), 4 * ks.length ≤ fuel + 2 →
      Unapplied ks rest →
      (∀ left e', fuel ≤ left + ks.length → e'.bare = e → Gives (readMembers left e') rest rest' Q) →
      Gives (readPrimary fuel >>= readMembers fuel) (ks ++ rest) rest' Q
  | .operand e, ks => ∀ fuel rest, 4 * ks.length ≤ fuel + 1 → headKind rest ≠ .symbol .dot →
      Unapplied ks rest → Gives (readOperand fuel) (ks ++ rest) rest (·.bare = e)
  | .grouping g, ks => ∀ fuel rest, 4 * ks.length ≤ fuel → (headKind rest).precedence? = none →
      ¬g.row.last.ContinuedBy (headKind rest) →
      Gives (readExprAbove fuel 0) (ks ++ rest) rest (·.bare = g.expr)
  | .args es, ks => ∀ fuel rest, 4 * ks.length < fuel →
      Gives (readArgList fuel) (ks ++ .symbol .rparen :: rest) (.symbol .rparen :: rest)
        (bareAll · = es)

theorem Term.not_continuedBy {u : Term} (hdot : k ≠ .symbol .dot) (hparen : k ≠ .symbol .lparen) :
    ¬u.ContinuedBy k := by
  rintro ⟨-, h | ⟨h, -⟩⟩
  · exact hdot h
  · exact hparen h

theorem Term.length_le_castTokens (casts : List Ty) : casts.length ≤ (castTokens casts).length := by
  induction casts with
  | nil => exact Nat.zero_le _
  | cons ty casts ih =>
    simp only [castTokens, List.flatMap_cons, List.length_append, List.length_cons] at ih ⊢
    omega

namespace Form.ReadsBack

variable {e : Expr} {g : Grouping}

theorem of_primary (h : ∀ fuel rest, 4 * ks.length ≤ fuel + 2 → Unapplied ks rest →
    Gives (readPrimary fuel) (ks ++ rest) rest (·.bare = e)) : ReadsBack (.object e) ks := by
  intro fuel rest rest' Q hfuel hparen hmembers
  refine (h fuel rest hfuel hparen).bind fun e' he' => ?_
  exact hmembers fuel e' (Nat.le_add_right _ _) he'

theorem leaf (h : e.leaf? = some k) : ReadsBack (.object e.bare) [k] := by
  refine of_primary fun fuel rest hfuel hparen => ?_
  rw [List.length_singleton] at hfuel
  rcases fuel with _ | fuel
  · omega
  rw [readPrimary, List.singleton_append]
  refine (gives_advance k).bind fun t ht => ?_
  have hnode {f : Node → Expr} (hf : ∀ n, (f n).bare = e.bare) :
      Gives (do return f (← freshNode t.span)) rest rest (·.bare = e.bare) :=
    (gives_freshNode t.span).bind fun n _ => .pure (hf n)
  rw [ht]
  cases e with
  | integer n value long | float n value single =>
    cases h
    exact hnode fun _ => rfl
  | bool n value =>
    cases value <;> cases h <;> exact hnode fun _ => rfl
  | text n value =>
    cases h
    exact hnode fun _ => rfl
  | var n name =>
    cases h
    refine (gives_at?_other fun hlparen => hparen hlparen name rfl).bind_eq ?_
    exact hnode fun _ => rfl
  | _ => cases h

theorem paren (h : ReadsBack (.grouping g) ks) :
    ReadsBack (.object g.expr) (.symbol .lparen :: (ks ++ [.symbol .rparen])) := by
  refine of_primary fun fuel rest hfuel _ => ?_
  rw [List.length_cons, List.length_append, List.length_singleton] at hfuel
  rcases fuel with _ | fuel
  · omega
  rw [readPrimary, List.cons_append, List.append_assoc, List.singleton_append]
  refine (gives_advance _).bind fun t ht => ?_
  rw [ht]
  refine (h fuel (.symbol .rparen :: rest) (by omega) rfl
    (Term.not_continuedBy (by simp) (by simp))).bind fun e' he' => ?_
  exact (gives_expectSymbol .rparen).bind fun _ _ => .pure he'

theorem readArgs (h : ReadsBack (.args es) ks) (hfuel : 4 * ks.length + 2 ≤ fuel) :
    Gives (readArgs fuel) (.symbol .lparen :: (ks ++ .symbol .rparen :: rest)) rest
      (bareAll · = es) := by
  rcases fuel with _ | fuel
  · omega
  rw [Tree.readArgs]
  refine (gives_expectSymbol .lparen).bind fun _ _ => ?_
  refine (h fuel rest (by omega)).bind fun es' hes' => ?_
  exact (gives_expectSymbol .rparen).bind fun _ _ => .pure hes'

theorem call {f : String} (h : ReadsBack (.args es) ks) :
    ReadsBack (.object (.call default f es))
      (.name f :: .symbol .lparen :: (ks ++ [.symbol .rparen])) := by
  refine of_primary fun fuel rest hfuel _ => ?_
  simp only [List.length_cons, List.length_append, List.length_nil] at hfuel
  rcases fuel with _ | fuel
  · omega
  rw [readPrimary, List.cons_append, List.cons_append, List.append_assoc, List.singleton_append]
  refine (gives_advance _).bind fun t ht => ?_
  rw [ht]
  refine (gives_at? _).bind_eq ?_
  refine (h.readArgs (by omega)).bind fun es' hes' => ?_
  refine gives_previousSpan.bind fun span _ => (gives_freshNode _).bind fun node _ => .pure ?_
  rw [Expr.bare, hes']

theorem construct {s : String} (h : ReadsBack (.args es) ks) :
    ReadsBack (.object (.construct default s es))
      (.keyword .newKw :: .name s :: .symbol .lparen :: (ks ++ [.symbol .rparen])) := by
  refine of_primary fun fuel rest hfuel _ => ?_
  simp only [List.length_cons, List.length_append, List.length_nil] at hfuel
  rcases fuel with _ | fuel
  · omega
  rw [readPrimary, List.cons_append, List.cons_append, List.cons_append, List.append_assoc,
    List.singleton_append]
  refine (gives_advance _).bind fun t ht => ?_
  rw [ht]
  refine (gives_readName s).bind_eq ?_
  refine (h.readArgs (by omega)).bind fun es' hes' => ?_
  refine gives_previousSpan.bind fun span _ => (gives_freshNode _).bind fun node _ => .pure ?_
  rw [Expr.bare, hes']

theorem access {member : String} (h : ReadsBack (.object e) ks) :
    ReadsBack (.object (.access default e member)) (ks ++ [.symbol .dot, .name member]) := by
  intro fuel rest rest' Q hfuel hparen hmembers
  simp only [List.length_append, List.length_cons, List.length_nil] at hfuel hmembers
  rw [List.append_assoc]
  refine h fuel _ rest' Q (by omega) nofun fun left e' hleft he' => ?_
  obtain ⟨left, rfl⟩ : ∃ f, left = f + 1 := ⟨left - 1, by omega⟩
  rw [readMembers, membersTurn]
  refine (gives_take? _).bind_eq ((gives_readName member).bind_eq ?_)
  refine (gives_at?_other fun hlparen => hparen hlparen member (by simp)).bind_eq ?_
  refine gives_previousSpan.bind fun span _ => (gives_freshNode _).bind fun node _ => ?_
  refine hmembers left _ (by omega) ?_
  rw [Expr.bare, he']

theorem method (he : ReadsBack (.object e) ks) (hes : ReadsBack (.args es) ks') :
    ReadsBack (.object (.call default f (e :: es)))
      (ks ++ .symbol .dot :: .name f :: .symbol .lparen :: (ks' ++ [.symbol .rparen])) := by
  intro fuel rest rest' Q hfuel hparen hmembers
  simp only [List.length_append, List.length_cons, List.length_nil] at hfuel hmembers
  simp only [List.append_assoc, List.cons_append, List.nil_append]
  refine he fuel _ rest' Q (by omega) nofun fun left e' hleft he' => ?_
  obtain ⟨left, rfl⟩ : ∃ f, left = f + 1 := ⟨left - 1, by omega⟩
  rw [readMembers, membersTurn]
  refine (gives_take? _).bind_eq ((gives_readName f).bind_eq ?_)
  refine (gives_at? _).bind_eq ?_
  refine (hes.readArgs (by omega)).bind fun es' hes' => ?_
  refine gives_previousSpan.bind fun span _ => (gives_freshNode _).bind fun node _ => ?_
  refine hmembers left _ (by omega) ?_
  rw [Expr.bare, bareAll, he', hes']

theorem plain (h : ReadsBack (.object e) ks) (hbegins : Begins (.object e) ks) :
    ReadsBack (.operand e) ks := by
  intro fuel rest hfuel hdot hparen
  obtain ⟨k, ks, rfl, hk⟩ := hbegins
  rw [List.length_cons] at hfuel
  rcases fuel with _ | fuel
  · omega
  rw [readOperand]
  refine gives_peek.bind_eq ?_
  rw [List.cons_append, headKind_cons, unaryOp?_of_beginsOperand hk]
  refine h fuel rest rest _ (by simp; omega) hparen fun left e' hleft he' => ?_
  rw [List.length_cons] at hleft
  exact (gives_readMembers_done (by omega) hdot).of_eq he'

theorem unary {op : UnaryOp} (h : ReadsBack (.operand e) ks) (hbegins : Begins (.operand e) ks) :
    ReadsBack (.operand (.unary default op e)) (.symbol op.mark :: ks) := by
  intro fuel rest hfuel hdot hparen
  rw [List.length_cons] at hfuel
  rcases fuel with _ | fuel
  · omega
  rw [readOperand, List.cons_append]
  refine gives_peek.bind_eq ?_
  rw [headKind_cons, unaryOp?_mark]
  refine (gives_advance _).bind fun t _ => ?_
  have hlast : Unapplied ks rest := by
    obtain ⟨k, ks, rfl, -⟩ := hbegins
    rwa [Unapplied, List.getLast?_cons_cons] at hparen
  refine (h fuel rest (by omega) hdot hlast).bind fun e' he' => ?_
  refine (gives_freshNode _).bind fun node _ => .pure ?_
  rw [Expr.bare, he']

theorem casts (hleast : least ≤ 11) {casts : List Ty}
    (hcasts : ∀ ty ∈ casts, ty.Proper) (hfuel : casts.length < fuel)
    (hrest : ∀ left e', fuel ≤ left + casts.length → e'.bare = casts.foldl (.cast default) e.bare →
      Gives (readOperators left least e') rest rest' Q) :
    Gives (readOperators fuel least e) (Term.castTokens casts ++ rest) rest' Q := by
  induction casts generalizing fuel e with
  | nil => exact hrest fuel e (Nat.le_refl _) rfl
  | cons ty casts ih =>
    obtain ⟨hty, hcasts⟩ := List.forall_mem_cons.mp hcasts
    obtain ⟨k, hk⟩ := Ty.exists_token hty
    rw [List.length_cons] at hfuel hrest
    obtain ⟨fuel, rfl⟩ : ∃ f, fuel = f + 1 := ⟨fuel - 1, by omega⟩
    have htokens : Term.castTokens (ty :: casts) ++ rest =
        .keyword .asKw :: k :: (Term.castTokens casts ++ rest) := by
      simp [Term.castTokens, hk]
    rw [htokens, readOperators, operatorsTurn]
    refine gives_peek.bind_eq ?_
    change Gives (if 11 < least then _ else _) _ _ _
    rw [if_neg (Nat.not_lt.mpr hleast)]
    refine (gives_advance _).bind fun _ _ => (gives_readType hk).bind_eq ?_
    refine gives_previousSpan.bind fun span _ => (gives_freshNode _).bind fun node _ => ?_
    refine ih hcasts (by omega) fun left e' hleft he' => hrest left e' (by omega) ?_
    rw [he', Expr.bare, List.foldl_cons]

theorem term {u : Term} (hu : u.Spelled) (h : ReadsBack (.operand u.operand) u.spelling)
    (hleast : least ≤ 11) {Q : Expr → Prop} (hfuel : 4 * u.tokens.length ≤ fuel + 1)
    (hnext : ¬u.ContinuedBy (headKind rest))
    (hrest : ∀ left e', fuel ≤ left + u.tokens.length → e'.bare = u.expr →
      Gives (readOperators left least e') rest rest' Q) :
    Gives (readOperand fuel >>= readOperators fuel least) (u.tokens ++ rest) rest' Q := by
  have hends : headKind (Term.castTokens u.casts ++ rest) ≠ .symbol .dot ∧
      Unapplied u.spelling (Term.castTokens u.casts ++ rest) := by
    cases hc : u.casts with
    | nil => exact ⟨fun h => hnext ⟨hc, .inl h⟩, fun h s hs => hnext ⟨hc, .inr ⟨h, s, hs⟩⟩⟩
    | cons ty casts => exact ⟨by simp [Term.castTokens], by simp [Unapplied, Term.castTokens]⟩
  have hfew := Term.length_le_castTokens u.casts
  have hlen : 0 < u.spelling.length := by
    obtain ⟨k, ks, heq, -⟩ := hu.1.begins
    simp [heq]
  rw [Term.tokens, List.length_append] at hfuel hrest
  rw [Term.tokens, List.append_assoc]
  refine (h fuel _ (by omega) hends.1 hends.2).bind fun e' he' => ?_
  refine casts hleast hu.2 (by omega) fun left e'' hleft he'' => hrest left e'' (by omega) ?_
  rw [he'', he', Term.expr]

/-- A grouping and what comes behind it. The loop over operators goes on behind the left side of the one
that is applied last, and reads the right side with more tightly binding operators only. -/
theorem operators (hg : g.Grouped)
    (hterms : ∀ u ∈ g.row.terms, u.Spelled ∧ ReadsBack (.operand u.operand) u.spelling)
    (hleast : least ≤ 11) (htop : ∀ o ∈ g.top?, least ≤ o.strength) {Q : Expr → Prop}
    (hfuel : 4 * g.row.tokens.length ≤ fuel + 1) (hnext : ¬g.row.last.ContinuedBy (headKind rest))
    (hstrength : ∀ n ∈ (headKind rest).precedence?, ∀ o ∈ g.top?, n ≤ o.strength)
    (hrest : ∀ left e', fuel ≤ left + g.row.tokens.length → e'.bare = g.expr →
      Gives (readOperators left least e') rest rest' Q) :
    Gives (readOperand fuel >>= readOperators fuel least) (g.row.tokens ++ rest) rest' Q := by
  induction g generalizing fuel least rest rest' Q with
  | term u =>
    obtain ⟨hu, hread⟩ := hterms u List.mem_cons_self
    have htokens : (Grouping.term u).row.tokens = u.tokens := by simp [Grouping.row, Row.tokens]
    rw [htokens] at hfuel hrest ⊢
    exact term hu hread hleast hfuel hnext hrest
  | apply op l r ihl ihr =>
    obtain ⟨hl, hr, hgl, hgr⟩ := hg
    rw [Grouping.terms_apply, List.forall_mem_append] at hterms
    rw [Grouping.tokens_apply, List.length_append, List.length_cons] at hfuel hrest
    rw [Grouping.last_apply] at hnext
    rw [Grouping.tokens_apply, List.append_assoc, List.cons_append]
    have hop : least ≤ op.strength := htop op rfl
    refine ihl hgl hterms.1 hleast (fun o ho => Nat.le_trans hop (hl o ho)) (by omega)
      (Term.not_continuedBy (by cases op <;> simp [BinaryOp.mark])
        (by cases op <;> simp [BinaryOp.mark]))
      (fun n hn o ho => ?_) fun left e' hleft he' => ?_
    · rw [headKind_cons, precedence?_mark] at hn
      cases hn
      exact hl o ho
    obtain ⟨left, rfl⟩ : ∃ f, left = f + 2 := ⟨left - 2, by omega⟩
    rw [readOperators, operatorsTurn]
    refine gives_peek.bind_eq ?_
    rw [headKind_cons, precedence?_mark]
    dsimp only
    rw [if_neg (Nat.not_lt.mpr hop)]
    refine (gives_advance _).bind fun _ _ => ?_
    rw [binaryOp?_mark]
    have hright : Gives (readExprAbove (left + 1) (op.strength + 1)) (r.row.tokens ++ rest) rest
        (·.bare = r.expr) := by
      rw [readExprAbove]
      refine ihr hgr hterms.2 op.strength_lt hr (by omega) hnext (fun n hn o ho => ?_)
        fun left' e'' hleft' he'' => ?_
      · exact Nat.le_trans (hstrength n hn op rfl) (Nat.le_of_lt (hr o ho))
      · refine (gives_readOperators_done (by omega) fun n hn => ?_).of_eq he''
        exact Nat.lt_succ_of_le (hstrength n hn op rfl)
    refine hright.bind fun right hright => (gives_freshNode _).bind fun node _ => ?_
    refine hrest (left + 1) _ (by omega) ?_
    rw [Expr.bare, he', hright, Grouping.expr]

theorem grouping (hg : g.Grouped)
    (hterms : ∀ u ∈ g.row.terms, u.Spelled ∧ ReadsBack (.operand u.operand) u.spelling) :
    ReadsBack (.grouping g) g.row.tokens := by
  intro fuel rest hfuel hoperator hnext
  have hlen : 0 < g.row.tokens.length := by
    obtain ⟨k, ks, heq, -⟩ := (hterms g.row.first List.mem_cons_self).1.1.begins
    simp [Row.tokens, Term.tokens, heq]
  rcases fuel with _ | fuel
  · omega
  rw [readExprAbove]
  refine operators hg hterms (by omega) (fun _ _ => Nat.zero_le _) hfuel hnext (by simp [hoperator])
    fun left e' hleft he' => ?_
  exact (gives_readOperators_done (by omega) (by simp [hoperator])).of_eq he'

theorem noArgs : ReadsBack (.args []) [] := by
  intro fuel rest hfuel
  rcases fuel with _ | fuel
  · omega
  rw [readArgList, listTurn]
  refine gives_peek.bind_eq ?_
  exact .pure rfl

theorem firstArg (h : ReadsBack (.grouping g) ks) (hbegins : Begins (.grouping g) ks)
     (hfuel : 4 * ks.length ≤ fuel) (hrest : Stops rest) (hmore : ∀ e', e'.bare = g.expr → Gives (do
      if ← take? (.symbol .comma) then return e' :: (← readArgList fuel)
      else return [e']) rest rest' P) : Gives (readArgList (fuel + 1)) (ks ++ rest) rest' P := by
  rw [readArgList, listTurn]
  refine gives_peek.bind_eq ?_
  obtain ⟨k, ks, rfl, hk⟩ := hbegins
  rw [List.cons_append, headKind_cons, if_neg]
  · exact (h fuel rest hfuel hrest.operator (Term.not_continuedBy hrest.dot hrest.paren)).bind hmore
  · intro hend
    rw [Bool.or_eq_true, beq_iff_eq, beq_iff_eq] at hend
    rcases hend with rfl | rfl <;> cases hk

theorem lastArg (h : ReadsBack (.grouping g) ks) (hbegins : Begins (.grouping g) ks) :
    ReadsBack (.args [g.expr]) ks := by
  intro fuel rest hfuel
  rcases fuel with _ | fuel
  · omega
  refine h.firstArg hbegins (by omega) ⟨rfl, by simp, by simp⟩ fun e' he' => ?_
  refine (gives_take?_other (by simp)).bind_eq ?_
  exact .pure (by simp only [bareAll, he'])

theorem consArg (h : ReadsBack (.grouping g) ks) (hbegins : Begins (.grouping g) ks)
    (hes : ReadsBack (.args es) ks') :
    ReadsBack (.args (g.expr :: es)) (ks ++ .symbol .comma :: ks') := by
  intro fuel rest hfuel
  rw [List.length_append, List.length_cons] at hfuel
  rcases fuel with _ | fuel
  · omega
  rw [List.append_assoc, List.cons_append]
  refine h.firstArg hbegins (by omega) ⟨rfl, by simp, by simp⟩ fun e' he' => ?_
  refine (gives_take? _).bind_eq ?_
  refine (hes fuel rest (by omega)).bind fun es' hes' => .pure ?_
  rw [bareAll, he', hes']

end Form.ReadsBack

theorem Form.Spelled.readsBack {form : Form} (h : form.Spelled ks) : form.ReadsBack ks := by
  induction h with
  | leaf h => exact .leaf h
  | paren _ ih => exact ih.paren
  | call _ ih => exact ih.call
  | method _ _ ihe ihes => exact ihe.method ihes
  | construct _ ih => exact ih.construct
  | access _ ih => exact ih.access
  | plain h ih => exact ih.plain h.begins
  | unary h ih => exact ih.unary h.begins
  | row hg h hcasts ih => exact .grouping hg fun u hu => ⟨⟨h u hu, hcasts u hu⟩, ih u hu⟩
  | noArgs => exact .noArgs
  | lastArg h ih => exact ih.lastArg h.begins
  | consArg h _ ih ihes => exact ih.consArg h.begins ihes

namespace Phrase.Spelled

theorem begins (h : Phrase.Spelled (.expr e) ks) : ∃ k rest, ks = k :: rest ∧ beginsExpr k = true := by
  obtain ⟨g, -, hform⟩ := h.formed
  exact hform.begins

theorem readsBack (h : Phrase.Spelled (.expr e) ks) (fuel : Nat) (rest : List Token.Kind)
    (hfuel : 4 * ks.length ≤ fuel) (hrest : Stops rest) :
    Gives (readExpr fuel) (ks ++ rest) rest (·.bare = e.bare) := by
  obtain ⟨g, hg, hform⟩ := h.formed
  rw [← hg]
  exact hform.readsBack fuel rest hfuel hrest.operator
    (Term.not_continuedBy hrest.dot hrest.paren)

end Phrase.Spelled

/-- Reading a row of terms with operators between them uses up exactly the row, and gives the only
grouping of it that the operators allow. -/
theorem Row.readExpr_groups {r : Row} {rest : List Token.Kind} {fuel : Nat}
    (hterms : ∀ u ∈ r.terms, u.Spelled) (hoperator : (headKind rest).precedence? = none)
    (hnext : ¬r.last.ContinuedBy (headKind rest)) (hfuel : 4 * r.tokens.length ≤ fuel) :
    ∃ g : Grouping, (g.row = r ∧ g.Grouped ∧ ∀ g' : Grouping, g'.row = r → g'.Grouped → g' = g) ∧
      Gives (readExpr fuel) (r.tokens ++ rest) rest (·.bare = g.expr) := by
  refine ⟨r.group, ⟨r.row_group, r.grouped_group, fun g' hrow hg => ?_⟩, ?_⟩
  · rw [← hrow, hg.group_row]
  · have hspelled : Form.Spelled (.grouping r.group) r.group.row.tokens := by
      refine .row r.grouped_group ?_ ?_ <;> rw [r.row_group]
      · exact fun u hu => (hterms u hu).1
      · exact fun u hu => (hterms u hu).2
    have hread := hspelled.readsBack fuel rest
    rw [r.row_group] at hread
    exact hread hfuel hoperator hnext

/-- The row `-a.x as i64 + b * (c - d)`. -/
def Row.sample : Row :=
  have leaf (s : String) : Term := ⟨.var default s, [.name s], []⟩
  ⟨⟨.unary default .neg (.access default (.var default "a") "x"),
      [.symbol .minus, .name "a", .symbol .dot, .name "x"], [.i64]⟩,
    [(.add, leaf "b"),
     (.mul, ⟨.binary default .sub (.var default "c") (.var default "d"),
      [.symbol .lparen, .name "c", .symbol .minus, .name "d", .symbol .rparen], []⟩)]⟩

theorem Row.readExpr_groups_sample :
    ∃ g : Grouping,
      (g.row = Row.sample ∧ g.Grouped ∧
        ∀ g' : Grouping, g'.row = Row.sample → g'.Grouped → g' = g) ∧
      Gives (readExpr 56) (Row.sample.tokens ++ [.symbol .semi]) [.symbol .semi]
        (·.bare = g.expr) := by
  have hvar (s : String) : Form.Spelled (.operand (.var default s)) [.name s] :=
    .plain (.leaf (e := .var default s) rfl)
  have haccess : Form.Spelled (.object (.access default (.var default "a") "x"))
      ([.name "a"] ++ [.symbol .dot, .name "x"]) := .access (.leaf (e := .var default "a") rfl)
  have hdifference : Form.Spelled (.grouping (.apply .sub (.term ⟨.var default "c", [.name "c"], []⟩)
      (.term ⟨.var default "d", [.name "d"], []⟩))) [.name "c", .symbol .minus, .name "d"] :=
    .row (by simp [Grouping.Grouped, Grouping.top?])
      (by simpa [Grouping.row, Row.terms] using ⟨hvar "c", hvar "d"⟩)
      (by simp [Grouping.row, Row.terms])
  refine Row.readExpr_groups ?_ rfl (Term.not_continuedBy (by simp) (by simp)) (by decide)
  simp only [Row.terms, Row.sample, List.map_cons, List.map_nil, List.forall_mem_cons]
  exact ⟨⟨haccess.plain.unary, by simp [Ty.Proper]⟩, ⟨hvar "b", by simp⟩,
    ⟨hdifference.paren.plain, by simp⟩, by simp⟩

end StructLang
