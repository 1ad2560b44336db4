import StructLang.Proofs.ReadBack

/-!
# Reading spelled programs back

Reading any spelling of a program gives the program, up to node numbers and places.
-/

namespace StructLang

open StructLang.Tree

/-! ## Statements -/

def beginsStmt (k : Token.Kind) : Bool :=
  beginsExpr k || k == .keyword .letKw || k == .keyword .ifKw || k == .keyword .returnKw

/-- The first token of a spelling is one that the clause can begin with. -/
def Clause.Begins : Clause → List Token.Kind → Prop
  | .stmt _, ks => ∃ k rest, ks = k :: rest ∧ beginsStmt k = true
  | .stmts _, _ => True
  | .block _, ks => ∃ rest, ks = .symbol .lbrace :: rest

theorem Clause.Spelled.begins {cl : Clause} (h : cl.Spelled ks) : cl.Begins ks := by
  cases h with
  | declare | assign | branch | branchElse | retNone | ret => exact ⟨_, _, rfl, rfl⟩
  | expr h =>
    obtain ⟨k, rest, rfl, hk⟩ := h.begins
    exact ⟨k, rest, rfl, by rw [beginsStmt, hk, Bool.true_or, Bool.true_or, Bool.true_or]⟩
  | noStmts | consStmt => trivial
  | block => exact ⟨_, rfl⟩

/-- Reading a spelling of the clause gives it back. -/
def Clause.ReadsBack : Clause → List Token.Kind → Prop
  | .stmt s, ks => ∀ fuel rest, 4 * ks.length < fuel →
      Gives (readStmt fuel) (ks ++ .symbol .semi :: rest) (.symbol .semi :: rest) (·.bare = s.bare)
  | .stmts ss, ks => ∀ fuel rest, 4 * ks.length < fuel →
      Gives (readStmts fuel) (ks ++ .symbol .rbrace :: rest) (.symbol .rbrace :: rest)
        (bareStmts · = bareStmts ss)
  | .block b, ks => ∀ fuel rest, 4 * ks.length ≤ fuel →
      Gives (readBlock fuel) (ks ++ rest) rest (·.bare = b.bare)

theorem Expr.eq_var_of_bare {e : Expr} (h : e.bare = (var n name).bare) :
    ∃ node, e = .var node name := by
  cases e with
  | var node name' =>
    cases h
    exact ⟨node, rfl⟩
  | _ => cases h

theorem stops_semi (rest : List Token.Kind) : Stops (.symbol .semi :: rest) :=
  ⟨rfl, by simp, by simp⟩

namespace Clause.ReadsBack

variable {e : Expr}

theorem declare {d : VarDecl} (hty : Announced (.symbol .colon) Ty.Spelled d.annotation ks)
    (hinit : Announced (.symbol .assign) Expr.Spelled d.init ks') :
    ReadsBack (.stmt (.declare d)) (.keyword .letKw ::
      ((if d.isMutable then [.keyword .mutKw] else []) ++ .name d.name :: (ks ++ ks'))) := by
  intro fuel rest hfuel
  simp only [List.length_cons, List.length_append] at hfuel
  rcases fuel with _ | fuel
  · omega
  simp only [List.cons_append, List.append_assoc]
  rw [readStmt]
  refine gives_peek.bind_eq ?_
  refine (gives_expectKeyword .letKw).bind fun start _ => gives_freshId.bind fun number _ => ?_
  refine (gives_take?_ite d.isMutable (by simp)).bind_eq ((gives_readName d.name).bind_eq ?_)
  have hnext : headKind (ks' ++ .symbol .semi :: rest) ≠ .symbol .colon :=
    headKind_announced_ne hinit (by simp) (by simp)
  refine gives_announced (f := id) hty hnext (fun ty ks'' _ hty => ?_) fun annotation hann => ?_
  · obtain ⟨k, hk, rfl⟩ := hty
    exact gives_readType hk
  refine gives_announced (f := Expr.bare) hinit (by simp) (fun e ks'' hlen he => ?_) fun init hi => ?_
  · exact Phrase.Spelled.readsBack he fuel _ (by omega) (stops_semi rest)
  refine gives_previousSpan.bind fun span _ => .pure ?_
  rw [Option.map_id, id, id] at hann
  rw [Stmt.bare, Stmt.bare, hann, hi]

theorem of_exprStmt (hk : beginsExpr k = true)
    (h : ∀ fuel rest, 4 * (ks.length + 1) ≤ fuel →
      Gives (readExprStmt fuel) (k :: (ks ++ .symbol .semi :: rest)) (.symbol .semi :: rest)
      (·.bare = s.bare)) :
    ReadsBack (.stmt s) (k :: ks) := by
  intro fuel rest hfuel
  rw [List.length_cons] at hfuel
  rcases fuel with _ | fuel
  · omega
  rw [readStmt, List.cons_append]
  refine gives_peek.bind fun k' hk' => ?_
  rw [headKind_cons] at hk'
  split
  · cases hk'
    cases hk
  · cases hk'
    cases hk
  · cases hk'
    cases hk
  · exact h fuel rest (by omega)

theorem assign (h : e.Spelled ks) :
    ReadsBack (.stmt (.assign span name e)) (.name name :: .symbol .assign :: ks) := by
  refine of_exprStmt rfl fun fuel rest hfuel => ?_
  rw [List.length_cons] at hfuel
  have hvar := Phrase.Spelled.readsBack (.plain (.leaf (e := .var default name) rfl))
  have htarget := hvar fuel (.symbol .assign :: (ks ++ .symbol .semi :: rest)) (by simp; omega)
    ⟨rfl, by simp, by simp⟩
  rw [readExprStmt]
  refine htarget.bind fun target htarget => (gives_at? _).bind_eq ?_
  refine (gives_advance _).bind fun t _ => ?_
  refine (Phrase.Spelled.readsBack h fuel _ (by omega) (stops_semi rest)).bind fun value hvalue => ?_
  obtain ⟨node, rfl⟩ := Expr.eq_var_of_bare htarget
  refine .pure ?_
  rw [Stmt.bare, Stmt.bare, hvalue]

theorem expr (h : e.Spelled ks) : ReadsBack (.stmt (.expr e)) ks := by
  have hread := Phrase.Spelled.readsBack h
  obtain ⟨k, ks, rfl, hk⟩ := h.begins
  refine of_exprStmt hk fun fuel rest hfuel => ?_
  rw [readExprStmt]
  refine (hread fuel _ (by simpa using hfuel) (stops_semi rest)).bind fun e' he' => ?_
  refine (gives_at?_other (by simp)).bind_eq ?_
  refine .pure ?_
  rw [Stmt.bare, Stmt.bare, he']

theorem retNone : ReadsBack (.stmt (.ret span none)) [.keyword .returnKw] := by
  intro fuel rest hfuel
  rcases fuel with _ | fuel
  · omega
  rw [readStmt, List.singleton_append]
  refine gives_peek.bind_eq ?_
  refine (gives_expectKeyword .returnKw).bind fun start _ => gives_peek.bind_eq ?_
  exact .pure_bind (gives_previousSpan.bind fun _ _ => .pure rfl)

theorem ret (h : e.Spelled ks) : ReadsBack (.stmt (.ret span (some e))) (.keyword .returnKw :: ks) := by
  intro fuel rest hfuel
  rw [List.length_cons] at hfuel
  rcases fuel with _ | fuel
  · omega
  rw [readStmt, List.cons_append]
  refine gives_peek.bind_eq ?_
  have hread := Phrase.Spelled.readsBack h fuel _ (by omega) (stops_semi rest)
  refine (gives_expectKeyword .returnKw).bind fun start _ => gives_peek.bind_eq ?_
  obtain ⟨k, ks, rfl, hk⟩ := h.begins
  rw [List.cons_append, headKind_cons, if_neg]
  · refine (hread.map (Q := (·.map Expr.bare = some e.bare)) fun e' he' => ?_).bind
      fun value hvalue => gives_previousSpan.bind fun _ _ => .pure ?_
    · rw [Option.map_some, he']
    · rw [Stmt.bare, Stmt.bare, hvalue, Option.map_some]
  · intro hend
    simp only [Bool.or_eq_true, beq_iff_eq] at hend
    rcases hend with (rfl | rfl) | rfl <;> cases hk

theorem condition (h : e.Spelled ks)
    (ht : ReadsBack (.block t) ks') (hbegins : Begins (.block t) ks')
    (hfuel : 4 * (ks.length + ks'.length) ≤ fuel)
    (hmore : ∀ (start : Span) cond' t', cond'.bare = e.bare → t'.bare = t.bare → Gives (do
      let elseBlock ← if ← take? (.keyword .elseKw) then some <$> readBlock fuel else pure none
      return .branch (start.merge (← previousSpan)) cond' t' elseBlock) rest rest' P) :
    Gives (readStmt (fuel + 1)) (.keyword .ifKw :: (ks ++ (ks' ++ rest))) rest' P := by
  rw [readStmt]
  refine gives_peek.bind_eq ?_
  have hstops : Stops (ks' ++ rest) := by
    obtain ⟨ks', rfl⟩ := hbegins
    exact ⟨rfl, by simp, by simp⟩
  refine (gives_expectKeyword .ifKw).bind fun start _ => ?_
  refine (Phrase.Spelled.readsBack h fuel _ (by omega) hstops).bind fun cond' hcond => ?_
  exact (ht fuel rest (by omega)).bind fun t' ht' => hmore start cond' t' hcond ht'

theorem branch (h : e.Spelled ks) (ht : ReadsBack (.block t) ks') (hbegins : Begins (.block t) ks') :
    ReadsBack (.stmt (.branch span e t none)) (.keyword .ifKw :: (ks ++ ks')) := by
  intro fuel rest hfuel
  rw [List.length_cons, List.length_append] at hfuel
  rcases fuel with _ | fuel
  · omega
  rw [List.cons_append, List.append_assoc]
  refine condition h ht hbegins (by omega) fun start cond' t' hcond' ht' => ?_
  refine (gives_take?_other (by simp)).bind_eq (.pure_bind ?_)
  refine gives_previousSpan.bind fun _ _ => .pure ?_
  rw [Stmt.bare, Stmt.bare, hcond', ht']

theorem branchElse (h : e.Spelled ks) (ht : ReadsBack (.block t) ks')
    (hbegins : Begins (.block t) ks') (hb : ReadsBack (.block b) ks'') :
    ReadsBack (.stmt (.branch span e t (some b)))
      (.keyword .ifKw :: (ks ++ (ks' ++ .keyword .elseKw :: ks''))) := by
  intro fuel rest hfuel
  simp only [List.length_cons, List.length_append] at hfuel
  rcases fuel with _ | fuel
  · omega
  simp only [List.cons_append, List.append_assoc]
  refine condition h ht hbegins (by omega) fun start cond' t' hcond' ht' => ?_
  refine (gives_take? _).bind_eq ?_
  refine ((hb fuel _ (by omega)).map (Q := fun o => ∃ b', o = some b' ∧ b'.bare = b.bare)
    fun b' hb' => ⟨b', rfl, hb'⟩).bind fun o ho => gives_previousSpan.bind fun _ _ => .pure ?_
  obtain ⟨b', rfl, hb'⟩ := ho
  rw [Stmt.bare, Stmt.bare, hcond', ht', hb']

theorem noStmts : ReadsBack (.stmts []) [] := by
  intro fuel rest hfuel
  rcases fuel with _ | fuel
  · omega
  rw [readStmts, stmtsTurn]
  refine gives_peek.bind_eq ?_
  exact .pure rfl

theorem consStmt (hs : ReadsBack (.stmt s) ks) (hbegins : Begins (.stmt s) ks)
    (hss : ReadsBack (.stmts ss) ks') : ReadsBack (.stmts (s :: ss)) (ks ++ .symbol .semi :: ks') := by
  intro fuel rest hfuel
  rw [List.length_append, List.length_cons] at hfuel
  obtain ⟨fuel, rfl⟩ : ∃ f, fuel = f + 2 := ⟨fuel - 2, by omega⟩
  rw [readStmts, stmtsTurn, List.append_assoc, List.cons_append]
  have hread := hs (fuel + 1) (ks' ++ .symbol .rbrace :: rest) (by omega)
  obtain ⟨k, ks, rfl, hk⟩ := hbegins
  refine gives_peek.bind_eq ?_
  have hother : headKind (k :: (ks ++ .symbol .semi :: (ks' ++ .symbol .rbrace :: rest))) ≠
      .symbol .semi := by
    rw [headKind_cons]
    rintro rfl
    cases hk
  rw [List.cons_append, headKind_cons, if_neg]
  · refine (gives_take?_other hother).bind_eq ?_
    refine gives_get.bind fun _ _ => (gives_attempt hread).bind fun outcome houtcome => ?_
    obtain ⟨s', rfl, hs'⟩ := houtcome
    -- the semicolon is skipped by the next round
    have hrest : Gives (readStmts (fuel + 1)) (.symbol .semi :: (ks' ++ .symbol .rbrace :: rest))
        (.symbol .rbrace :: rest) (bareStmts · = bareStmts ss) := by
      rw [readStmts, stmtsTurn]
      exact gives_peek.bind_eq ((gives_take? _).bind_eq (hss fuel rest (by omega)))
    refine hrest.bind fun ss' hss' => .pure ?_
    rw [bareStmts, bareStmts, hs', hss']
  · intro hend
    simp only [Bool.or_eq_true, beq_iff_eq] at hend
    rcases hend with (rfl | rfl) | hitem
    · cases hk
    · cases hk
    · unfold beginsItem at hitem
      split at hitem <;> first | cases hk | cases hitem

theorem block (h : ReadsBack (.stmts ss) ks) :
    ReadsBack (.block (.mk n ss)) (.symbol .lbrace :: (ks ++ [.symbol .rbrace])) := by
  intro fuel rest hfuel
  simp only [List.length_cons, List.length_append, List.length_nil] at hfuel
  rcases fuel with _ | fuel
  · omega
  rw [readBlock, List.cons_append, List.append_assoc, List.singleton_append]
  refine (gives_expectSymbol .lbrace).bind fun start _ => gives_freshId.bind fun number _ => ?_
  refine (h fuel rest (by omega)).bind fun ss' hss' => ?_
  refine (gives_expectSymbol .rbrace).bind fun _ _ => gives_previousSpan.bind fun _ _ => .pure ?_
  rw [Block.bare, Block.bare, hss']

end Clause.ReadsBack

theorem Clause.Spelled.readsBack {cl : Clause} (h : cl.Spelled ks) : cl.ReadsBack ks := by
  induction h with
  | declare hty hinit => exact .declare hty hinit
  | assign h => exact .assign h
  | branch hcond ht ih => exact .branch hcond ih ht.begins
  | branchElse hcond ht _ iht ihe => exact .branchElse hcond iht ht.begins ihe
  | retNone => exact .retNone
  | ret h => exact .ret h
  | expr h => exact .expr h
  | noStmts => exact .noStmts
  | consStmt hs _ ihs ihss => exact .consStmt ihs hs.begins ihss
  | block _ ih => exact .block ih

/-! ## Items -/

section

variable {t : TypedName}

theorem gives_readTypedName (h : t.Spelled ks) :
    Gives readTypedName (ks ++ rest) rest (·.bare = t.bare) := by
  obtain ⟨k, hk, rfl⟩ := h
  rw [readTypedName]
  refine gives_peekSpan.bind fun start _ => (gives_readName t.name).bind_eq ?_
  refine (gives_expectSymbol .colon).bind fun _ _ => (gives_readType hk).bind_eq ?_
  exact gives_previousSpan.bind fun _ _ => .pure rfl

theorem TypedName.Spelled.begins (h : t.Spelled ks) : ∃ more, ks = .name t.name :: more := by
  obtain ⟨k, _, rfl⟩ := h
  exact ⟨_, rfl⟩

theorem gives_firstParam (h : t.Spelled ks) (hmore : ∀ t', t'.bare = t.bare → Gives (do
        if ← take? (.symbol .comma) then return t' :: (← readParamList fuel) else return [t'])
        rest rest' P) : Gives (readParamList (fuel + 1)) (ks ++ rest) rest' P := by
  have hread : Gives readTypedName (ks ++ rest) rest _ := gives_readTypedName h
  obtain ⟨more, rfl⟩ := h.begins
  rw [readParamList, listTurn]
  refine gives_peek.bind_eq ?_
  exact hread.bind hmore

theorem gives_readParamList (h : Listed TypedName.Spelled ts ks) (hfuel : ks.length < fuel) :
    Gives (readParamList fuel) (ks ++ .symbol .rparen :: rest) (.symbol .rparen :: rest)
      (·.map TypedName.bare = ts.map TypedName.bare) := by
  induction h generalizing fuel with
  | nil =>
    rcases fuel with _ | fuel
    · omega
    rw [readParamList, listTurn]
    refine gives_peek.bind_eq ?_
    exact .pure rfl
  | last ht =>
    rcases fuel with _ | fuel
    · omega
    refine gives_firstParam ht fun t' ht' => (gives_take?_other (by simp)).bind_eq ?_
    exact .pure (by rw [List.map_singleton, List.map_singleton, ht'])
  | cons ht _ ih =>
    rcases fuel with _ | fuel
    · omega
    rw [List.length_append, List.length_cons] at hfuel
    rw [List.append_assoc, List.cons_append]
    refine gives_firstParam ht fun t' ht' => (gives_take? _).bind_eq ?_
    refine (ih (by omega)).bind fun ts' hts' => .pure ?_
    rw [List.map_cons, List.map_cons, ht', hts']

theorem gives_firstField (h : t.Spelled ks) (hmore : ∀ t', t'.bare = t.bare →
      Gives (do let _ ← take? (.symbol .comma) return t' :: (← readFields fuel)) rest rest' P) :
    Gives (readFields (fuel + 1)) (ks ++ rest) rest' P := by
  have hread : Gives readTypedName (ks ++ rest) rest _ := gives_readTypedName h
  obtain ⟨more, rfl⟩ := h.begins
  rw [readFields, fieldsTurn]
  refine gives_peek.bind_eq ?_
  exact hread.bind hmore

theorem gives_readFields_done :
    Gives (readFields (fuel + 1)) (.symbol .rbrace :: rest) (.symbol .rbrace :: rest) (· = []) := by
  rw [readFields, fieldsTurn]
  refine gives_peek.bind_eq ?_
  exact .pure rfl

theorem gives_readFields (h : Listed TypedName.Spelled ts ks) (hfuel : ks.length < fuel) :
    Gives (readFields fuel) (ks ++ .symbol .rbrace :: rest) (.symbol .rbrace :: rest)
      (·.map TypedName.bare = ts.map TypedName.bare) := by
  induction h generalizing fuel with
  | nil =>
    rcases fuel with _ | fuel
    · omega
    exact gives_readFields_done.of_eq rfl
  | last ht =>
    obtain ⟨more, rfl⟩ := ht.begins
    rw [List.length_cons] at hfuel
    obtain ⟨fuel, rfl⟩ : ∃ f, fuel = f + 2 := ⟨fuel - 2, by omega⟩
    refine gives_firstField ht fun t' ht' => (gives_take?_other (by simp)).bind fun _ _ => ?_
    refine gives_readFields_done.bind_eq (.pure ?_)
    rw [List.map_singleton, List.map_singleton, ht']
  | cons ht _ ih =>
    rcases fuel with _ | fuel
    · omega
    rw [List.length_append, List.length_cons] at hfuel
    rw [List.append_assoc, List.cons_append]
    refine gives_firstField ht fun t' ht' => (gives_take? _).bind fun _ _ => ?_
    refine (ih (by omega)).bind fun ts' hts' => .pure ?_
    rw [List.map_cons, List.map_cons, ht', hts']

theorem gives_readHeader (h : HeaderSpelled ts ret ks) (hfuel : ks.length ≤ fuel) :
    Gives (readHeader fuel) (ks ++ rest) rest fun header =>
      header.1.map TypedName.bare = ts.map TypedName.bare ∧ header.2 = ret := by
  cases h with
  | mk hparams hret =>
    simp only [List.length_cons, List.length_append, List.length_nil] at hfuel
    simp only [List.cons_append, List.append_assoc, List.nil_append]
    rw [readHeader]
    refine (gives_expectSymbol .lparen).bind fun _ _ => ?_
    refine (gives_readParamList hparams (by omega)).bind fun ts' hts' => ?_
    refine (gives_expectSymbol .rparen).bind fun _ _ => (gives_expectSymbol .arrow).bind fun _ _ => ?_
    exact (gives_readType hret).bind_eq (.pure ⟨hts', rfl⟩)

theorem gives_readDotted
    (hfuel : (parts.flatMap fun part => [Token.Kind.symbol .dot, .name part]).length < fuel)
    (hrest : headKind rest ≠ .symbol .dot) : Gives (readDotted fuel)
      (parts.flatMap (fun part => [.symbol .dot, .name part]) ++ rest) rest (· = parts) := by
  induction parts generalizing fuel with
  | nil =>
    rcases fuel with _ | fuel
    · omega
    rw [readDotted]
    refine (gives_take?_other hrest).bind_eq ?_
    exact .pure rfl
  | cons part parts ih =>
    rw [List.flatMap_cons, List.length_append] at hfuel
    rcases fuel with _ | fuel
    · omega
    rw [readDotted, List.flatMap_cons, List.append_assoc]
    have hparts := @ih fuel (by simp only [List.length_cons] at hfuel; omega)
    exact (gives_take? _).bind_eq ((gives_readName part).bind_eq (hparts.bind_eq (.pure rfl)))

end

def Item.OfNoModule (i : Item) : Prop := ∀ f, i = .fn f → f.module = ""

/-- Reading a spelling of the item gives it back, with no module. -/
def Item.ReadsBack (i : Item) (ks : List Token.Kind) : Prop :=
  ∀ fuel rest, 4 * ks.length ≤ fuel → headKind rest ≠ .symbol .dot →
    Gives (readItem fuel) (ks ++ rest) rest fun i' => i'.bare = i.bare ∧ i'.OfNoModule

namespace Item.ReadsBack

theorem importing (first : String) (parts : List String) :
    ReadsBack (.importing ⟨first :: parts, span⟩)
      (.keyword .importKw :: .name first :: parts.flatMap fun part => [.symbol .dot, .name part]) := by
  intro fuel rest hfuel hrest
  simp only [List.length_cons] at hfuel
  rw [readItem, List.cons_append, List.cons_append]
  refine gives_peek.bind_eq ?_
  refine Gives.map (P := (·.path = first :: parts)) ?_ fun d hd => ⟨?_, fun _ h => by cases h⟩
  · rw [readImport]
    refine (gives_expectKeyword .importKw).bind fun start _ => (gives_readName first).bind_eq ?_
    refine (gives_readDotted (by omega) hrest).bind_eq ?_
    exact gives_previousSpan.bind fun _ _ => .pure rfl
  · rw [Item.bare, Item.bare, hd]

theorem struct {d : StructDef} (h : Listed TypedName.Spelled d.fields ks) :
    ReadsBack (.struct d)
      (.keyword .structKw :: .name d.name :: .symbol .lbrace :: (ks ++ [.symbol .rbrace])) := by
  intro fuel rest hfuel _
  simp only [List.length_cons, List.length_append, List.length_nil] at hfuel
  simp only [List.cons_append, List.append_assoc, List.nil_append]
  rw [readItem]
  refine gives_peek.bind_eq ?_
  refine Gives.map (P := fun d' => (Item.struct d').bare = (Item.struct d).bare) ?_
    fun d' hd' => ⟨hd', fun _ h => by cases h⟩
  rw [readStruct]
  refine (gives_expectKeyword .structKw).bind fun start _ => ?_
  refine (gives_readName d.name).bind_eq ((gives_expectSymbol .lbrace).bind fun _ _ => ?_)
  refine (gives_readFields h (by omega)).bind fun fields hfields => ?_
  refine (gives_expectSymbol .rbrace).bind fun _ _ => gives_previousSpan.bind fun _ _ => .pure ?_
  rw [Item.bare, Item.bare, hfields]

theorem foreign (h : HeaderSpelled d.params d.ret ks) :
    ReadsBack (.foreign d) (.keyword .foreignKw :: .keyword .fnKw :: .name d.name :: ks) := by
  intro fuel rest hfuel _
  simp only [List.length_cons] at hfuel
  simp only [List.cons_append]
  rw [readItem]
  refine gives_peek.bind_eq ?_
  refine Gives.map (P := fun d' => (Item.foreign d').bare = (Item.foreign d).bare) ?_
    fun d' hd' => ⟨hd', fun _ h => by cases h⟩
  rw [readForeign]
  refine (gives_expectKeyword .foreignKw).bind fun start _ => ?_
  refine (gives_expectKeyword .fnKw).bind fun _ _ => (gives_readName d.name).bind_eq ?_
  refine (gives_readHeader h (by omega)).bind fun header hheader => ?_
  refine gives_previousSpan.bind fun _ _ => .pure ?_
  rw [Item.bare, Item.bare, hheader.1, hheader.2]

theorem readBody (hheader : HeaderSpelled f.params f.ret ks')
    (hbody : Clause.Spelled (.block f.body) ks'') (hfuel : 4 * (ks'.length + ks''.length) ≤ fuel)
    {start : Span} (hreceiver : f.receiver = receiver) : Gives (do
      let (params, ret) ← readHeader fuel let body ← readBlock fuel
      return (⟨⟨f.name, "", receiver, params, ret, start.merge (← previousSpan)⟩, body⟩ : FnDef))
      (ks' ++ (ks'' ++ rest)) rest fun f' => (Item.fn f').bare = (Item.fn f).bare ∧ f'.module = "" := by
  refine (gives_readHeader hheader (by omega)).bind fun header hheader => ?_
  refine (hbody.readsBack fuel rest (by omega)).bind fun body hbody => ?_
  refine gives_previousSpan.bind fun _ _ => .pure ⟨?_, rfl⟩
  rw [Item.bare, Item.bare, hreceiver, hheader.1, hheader.2, hbody]

theorem fn {f : FnDef} (hreceiver : ReceiverSpelled f.receiver ks)
    (hheader : HeaderSpelled f.params f.ret ks') (hbody : Clause.Spelled (.block f.body) ks'') :
    ReadsBack (.fn f) (.keyword .fnKw :: (ks ++ .name f.name :: (ks' ++ ks''))) := by
  intro fuel rest hfuel _
  simp only [List.length_cons, List.length_append] at hfuel
  simp only [List.cons_append, List.append_assoc]
  rw [readItem]
  refine gives_peek.bind_eq ?_
  refine Gives.map (P := fun f' => (Item.fn f').bare = (Item.fn f).bare ∧ f'.module = "") ?_
    fun f' hf' => ⟨hf'.1, ?_⟩
  · rw [readFunction]
    refine (gives_expectKeyword .fnKw).bind fun start _ => ?_
    generalize hr : f.receiver = receiver at hreceiver
    cases hreceiver with
    | none =>
      have hdot : headKind (ks' ++ (ks'' ++ rest)) ≠ .symbol .dot := by
        cases hheader
        simp
      refine (gives_readName f.name).bind_eq ((gives_take?_other hdot).bind_eq (.pure_bind ?_))
      exact readBody hheader hbody (by omega) hr
    | struct s =>
      refine (gives_readName s).bind_eq ((gives_take? _).bind_eq ?_)
      refine (gives_readName f.name).bind_eq (.pure_bind ?_)
      exact readBody hheader hbody (by omega) hr
  · intro g hg
    cases hg
    exact hf'.2

end Item.ReadsBack

theorem Item.Spelled.readsBack {i : Item} (h : i.Spelled ks) : i.ReadsBack ks := by
  cases h with
  | importing first parts => exact .importing first parts
  | struct h => exact .struct h
  | foreign h => exact .foreign h
  | fn hreceiver hheader hbody => exact .fn hreceiver hheader hbody

theorem Item.Spelled.begins {i : Item} (h : i.Spelled ks) :
    ∃ k rest, ks = k :: rest ∧ beginsItem k = true := by
  cases h <;> exact ⟨_, _, rfl, rfl⟩

theorem ItemsSpelled.headKind_ne_dot (h : ItemsSpelled is ks) : headKind ks ≠ .symbol .dot := by
  cases h with
  | nil => exact Token.Kind.noConfusion
  | cons hi =>
    obtain ⟨k, rest, rfl, hk⟩ := hi.begins
    rw [List.cons_append, headKind_cons]
    rintro rfl
    cases hk

/-- Reading spellings of items one after the other gives the items back. -/
theorem ItemsSpelled.readsBack (h : ItemsSpelled is ks) (hfuel : 4 * ks.length < fuel) :
    Gives (readItems fuel) ks [] fun is' =>
      is'.map Item.bare = is.map Item.bare ∧ ∀ i ∈ is', i.OfNoModule := by
  induction h generalizing fuel with
  | nil =>
    rcases fuel with _ | fuel
    · omega
    rw [readItems, itemsTurn]
    refine gives_peek.bind_eq ?_
    exact .pure ⟨rfl, by simp⟩
  | @cons i is ks ks' hi his ih =>
    rw [List.length_append] at hfuel
    rcases fuel with _ | fuel
    · omega
    have hread := hi.readsBack fuel ks' (by omega) his.headKind_ne_dot
    obtain ⟨k, ks, rfl, hk⟩ := hi.begins
    rw [List.length_cons] at hfuel
    rw [readItems, itemsTurn]
    refine gives_peek.bind_eq ?_
    have hsemi : headKind (k :: (ks ++ ks')) ≠ .symbol .semi := by
      rw [headKind_cons]
      rintro rfl
      cases hk
    rw [List.cons_append, headKind_cons, if_neg]
    · refine (gives_take?_other hsemi).bind_eq ?_
      refine gives_get.bind fun _ _ => (gives_attempt hread).bind fun outcome houtcome => ?_
      obtain ⟨i', rfl, hi', hmodule⟩ := houtcome
      refine (ih (by omega)).bind fun is' his' => .pure ⟨?_, ?_⟩
      · rw [List.map_cons, List.map_cons, hi', his'.1]
      · exact List.forall_mem_cons.mpr ⟨hmodule, his'.2⟩
    · rw [beq_iff_eq]
      rintro rfl
      cases hk

/-! ## Programs -/

theorem Ty.ne_endOfFile_of_token? {ty : Ty} (h : ty.token? = some k) : k ≠ .endOfFile := by
  rintro rfl
  cases ty <;> cases h

theorem Item.Spelled.getLast?_ne {i : Item} (h : i.Spelled ks) : ks.getLast? ≠ some .endOfFile := by
  cases h with
  | importing first parts =>
    intro hlast
    have hmem := List.mem_of_getLast? hlast
    simp at hmem
  | struct => simp [List.getLast?_cons, List.getLast?_append]
  | foreign h =>
    cases h with
    | mk _ hret => simp [List.getLast?_cons, List.getLast?_append, Ty.ne_endOfFile_of_token? hret]
  | @fn f _ _ _ _ _ hbody =>
    generalize f.body = body at hbody
    cases hbody
    simp [List.getLast?_cons, List.getLast?_append]

theorem ItemsSpelled.getLast?_ne (h : ItemsSpelled is ks) : ks.getLast? ≠ some .endOfFile := by
  induction h with
  | nil => simp
  | @cons _ _ ks ks' hi _ ih =>
    rw [List.getLast?_append]
    cases hlast : ks'.getLast? with
    | none => exact hi.getLast?_ne
    | some k =>
      rw [hlast] at ih
      exact ih

/-- A cursor stands in front of the tokens, be it with or without the end of the file behind them. -/
theorem Tree.Cursor.kinds_ofTokens (firstId : Nat)
    (h : tokens.map Token.kind = ks ∨ tokens.map Token.kind = ks ++ [.endOfFile])
    (hlast : ks.getLast? ≠ some .endOfFile) : (ofTokens tokens firstId).kinds = ks := by
  have hkind : tokens.getLast?.map Token.kind = (tokens.map Token.kind).getLast? := by
    rw [List.getLast?_map]
  rcases h with h | h
  · have hahead : (ofTokens tokens firstId).ahead = tokens := by
      unfold ofTokens
      dsimp only
      split
      · next span heq =>
        rw [heq, h] at hkind
        exact absurd hkind.symm hlast
      · rfl
    rw [Cursor.kinds, hahead, h]
  · have hahead : (ofTokens tokens firstId).ahead = tokens.dropLast := by
      unfold ofTokens
      dsimp only
      split
      · rfl
      · next hne =>
        rw [h, List.getLast?_concat] at hkind
        obtain ⟨t, ht, hkind⟩ := Option.map_eq_some_iff.mp hkind
        exact absurd (by rw [ht, ← hkind]) (hne t.span)
    rw [Cursor.kinds, hahead, List.map_dropLast, h, List.dropLast_concat]

/-- Reading spellings back. A program with proper types, struct receivers and imports that name
something has a spelling, and reading any spelling of it, with or without the end of the file behind it,
gives the program, up to node numbers and places, and names no module. -/
theorem Program.ofTokens_spelled (p : Program) : (p.Spellable → ∃ ks, p.Spelled ks) ∧
    ∀ ks, p.Spelled ks → ∀ tokens firstId,
      (tokens.map Token.kind = ks ∨ tokens.map Token.kind = ks ++ [.endOfFile]) →
      ∃ q, (Program.ofTokens tokens firstId).result = .ok q ∧ q.bare = p.bare ∧
        ∀ f ∈ q.functions, f.module = "" := by
  refine ⟨Program.exists_spelled, fun ks hks tokens firstId htokens => ?_⟩
  have hlen : ks.length ≤ tokens.length := by
    have hmap : (tokens.map Token.kind).length = tokens.length := List.length_map _
    rcases htokens with h | h
    · rw [h] at hmap
      omega
    · rw [h, List.length_append] at hmap
      omega
  obtain ⟨items, c, hread, -, hmistakes, hbare, hmodule⟩ :=
    ItemsSpelled.readsBack hks (show 4 * ks.length < budget tokens by unfold budget; omega) _
      (Tree.Cursor.kinds_ofTokens firstId htokens (ItemsSpelled.getLast?_ne hks))
  have hclean : c.mistakes = [] := hmistakes
  refine ⟨⟨items⟩, ?_, congrArg Program.mk hbare, fun f hf => ?_⟩
  · rw [Program.ofTokens, hread]
    simp [hclean]
  · obtain ⟨i, hi, hfn⟩ := List.mem_filterMap.mp hf
    cases i with
    | fn g =>
      cases hfn
      exact hmodule _ hi f rfl
    | _ => cases hfn

/-- A struct with a method that calls itself. -/
def Program.sampleTree : Program where
  items := [
    .struct ⟨"P", [⟨"x", .i32, default⟩], default⟩,
    .fn {
      name := "get"
      module := ""
      receiver := some (.struct "P")
      params := [⟨"k", .i32, default⟩]
      ret := .i32
      span := default
      body := .mk default [
        .declare ⟨default, "a", some .i32, true, some (.call default "get" [.var default "self",
          .unary default .neg (.binary default .add (.integer default 1 false)
            (.access default (.var default "self") "x"))])⟩,
        .ret default (some (.cast default (.var default "a") .i32))] }]

/-- The tokens of `struct P { x: i32, } fn P.get(k: i32) -> i32 { let mut a: i32 =
self.get(-(1 + self.x),); return (a as i32); }`. -/
def Program.sampleKinds : List Token.Kind :=
  [.keyword .structKw, .name "P", .symbol .lbrace, .name "x", .symbol .colon, .keyword .i32Kw,
    .symbol .comma, .symbol .rbrace,
    .keyword .fnKw, .name "P", .symbol .dot, .name "get", .symbol .lparen, .name "k", .symbol .colon,
    .keyword .i32Kw, .symbol .rparen, .symbol .arrow, .keyword .i32Kw, .symbol .lbrace,
    .keyword .letKw, .keyword .mutKw, .name "a", .symbol .colon, .keyword .i32Kw, .symbol .assign,
    .name "self", .symbol .dot, .name "get", .symbol .lparen, .symbol .minus, .symbol .lparen,
    .integer 1 false, .symbol .plus, .name "self", .symbol .dot, .name "x", .symbol .rparen,
    .symbol .comma, .symbol .rparen, .symbol .semi,
    .keyword .returnKw, .symbol .lparen, .name "a", .keyword .asKw, .keyword .i32Kw, .symbol .rparen,
    .symbol .semi, .symbol .rbrace]

/-- The call may be spelled with a receiver, a comma may follow the last field and the last argument, and
the returned value may stand in parentheses. -/
theorem Program.ofTokens_spelled_sample :
    (sampleTree.Spellable ∧ ∃ ks, sampleTree.Spelled ks) ∧
    ∃ ks, sampleTree.Spelled ks ∧ ks = sampleKinds ∧
      ∃ q, (Program.ofTokens (ks.map (⟨·, default⟩)) 0).result = .ok q ∧ q.bare = sampleTree.bare ∧
        ∀ f ∈ q.functions, f.module = "" := by
  have hcall : Phrase.Spelled (.operand (.call default "get" [.var default "self",
      .unary default .neg (.binary default .add (.integer default 1 false)
        (.access default (.var default "self") "x"))])) _ :=
    .method (.leaf rfl) (.consArg (.unary (.paren (.binary (.leaf rfl) (.access (.leaf rfl))))) .noArgs)
  have hret : Clause.Spelled (.stmt (.ret default (some (.cast default (.var default "a") .i32)))) _ :=
    .ret (.plain (.paren (.cast (.leaf rfl) rfl)))
  have hks : sampleTree.Spelled _ :=
    .cons (.struct (.cons ⟨_, rfl, rfl⟩ .nil))
      (.cons (.fn (.struct "P") (.mk (.last ⟨_, rfl, rfl⟩) rfl)
        (.block (.consStmt (.declare (.some ⟨_, rfl, rfl⟩) (.some (.plain hcall)))
          (.consStmt hret .noStmts)))) .nil)
  have hspellable : sampleTree.Spellable := by
    simp [Spellable, sampleTree, Item.Spellable, Block.Spellable, SpellableStmts, Stmt.Spellable,
      Expr.Spellable, SpellableAll, Ty.Proper]
  obtain ⟨hexists, hread⟩ := sampleTree.ofTokens_spelled
  refine ⟨⟨hspellable, hexists hspellable⟩, _, hks, rfl, hread _ hks _ 0 (.inl ?_)⟩
  simp

end StructLang
