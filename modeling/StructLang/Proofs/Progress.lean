import StructLang.Proofs.Reading

/-!
# Reading moves forward and comes to an end

Whatever tokens a list holds, reading it ends within its step budget, with a cursor at the end of the
file. No reader moves back, and a loop of the readers goes on only behind the token at which its last turn
began: `Repeats` says that a reader is such a loop.
-/

namespace StructLang.Tree

def Forward {α : Type} (r : Reader α) : Prop :=
  ∀ c, match r c with
    | .ok _ c' => c'.ahead <:+ c.ahead
    | .error _ c' => c'.ahead <:+ c.ahead

/-- A reader with a step budget repeats a turn. What the turns to come do matters to it only at cursors
with fewer tokens ahead, so no turn that is followed by another ends where it began. -/
def Repeats {ι β : Type} (read : Nat → ι → Reader β) (turn : Nat → (ι → Reader β) → ι → Reader β) :
    Prop :=
  ∀ fuel, read (fuel + 1) = turn fuel (read fuel) ∧ ∀ next next' x c,
    (∀ y c', c'.ahead <:+ c.ahead → c'.left < c.left → next y c' = next' y c') →
    turn fuel next x c = turn fuel next' x c

/-! ## Readers that do the same -/

section

variable {α β : Type} {P : α → Cursor → Prop}

theorem Reads.congr {k k' : α → Reader β} (h : Reads True c r P)
    (hk : ∀ a c', c'.ahead <:+ c.ahead → c'.left ≤ c.left → P a c' → k a c' = k' a c') :
    (r >>= k) c = (r >>= k') c := by
  change EStateM.bind r k c = EStateM.bind r k' c
  unfold Reads at h
  unfold EStateM.bind
  cases hr : r c with
  | error e c' => rfl
  | ok a c' =>
    rw [hr] at h
    exact hk a c' h.1.ahead h.1.left_le h.2

theorem bind_congr_left {k : α → Reader β} (h : r c = r' c) : (r >>= k) c = (r' >>= k) c := by
  change EStateM.bind r k c = EStateM.bind r' k c
  unfold EStateM.bind
  rw [h]

theorem peek_congr {k k' : Token.Kind → Reader β} (h : k c.current.kind c = k' c.current.kind c) :
    (peek >>= k) c = (peek >>= k') c := h

theorem at?_congr (h : k (c.current.kind == kind) c = k' (c.current.kind == kind) c) :
    (at? kind >>= k) c = (at? kind >>= k') c := h

theorem previousSpan_congr (h : k c.previous c = k' c.previous c) :
    (previousSpan >>= k) c = (previousSpan >>= k') c := h

theorem get_congr {k k' : Cursor → Reader β} (h : k c c = k' c c) :
    (get >>= k) c = (get >>= k') c := h

theorem Reads.recover_congr {q q' : SyntaxError → Unit → Reader β} (h : Reads True c r P)
    (hk : ∀ e, k (.error e) = record e >>= q e) (hk' : ∀ e, k' (.error e) = record e >>= q' e)
    (hok : ∀ a c', c'.ahead <:+ c.ahead → c'.left ≤ c.left → P a c' → k (.ok a) c' = k' (.ok a) c')
    (herror : ∀ e c', c'.ahead <:+ c.ahead → c'.left ≤ c.left → q e () c' = q' e () c') :
    (attempt r >>= k) c = (attempt r >>= k') c := by
  change EStateM.bind (attempt r) k c = EStateM.bind (attempt r) k' c
  unfold Reads at h
  cases hr : r c with
  | ok a c' =>
    rw [hr] at h
    simpa only [EStateM.bind, attempt, hr] using hok a c' h.1.ahead h.1.left_le h.2
  | error e c' =>
    rw [hr] at h
    simp only [EStateM.bind, attempt, hr, hk, hk']
    exact herror e { c' with mistakes := c'.mistakes ++ [e] } h.1.ahead h.1.left_le

theorem Reads.forward {short : Cursor → Prop} {P : Cursor → α → Cursor → Prop}
    (h : ∀ c, Reads (short c) c r (P c)) : Forward r := by
  intro c
  have h := h c
  unfold Reads at h
  cases hr : r c with
  | ok a c' | error e c' =>
    rw [hr] at h
    exact h.1.ahead

end

/-! ## Turns -/

theorem repeats_operators (least : Nat) : Repeats (readOperators · least)
    fun fuel => operatorsTurn least (readExprAbove fuel) := by
  refine fun fuel => ⟨rfl, fun next next' left c h => peek_congr ?_⟩
  cases hkind : c.current.kind.precedence? with
  | none => rfl
  | some strength =>
    have hne : c.current.kind ≠ .endOfFile := fun h => by rw [h] at hkind; cases hkind
    dsimp only
    split
    · rfl
    refine (reads_advance_of hne).congr fun _ c1 h1 _ ⟨_, _⟩ => ?_
    cases binaryOp? c.current.kind with
    | some op =>
      have hright := ((ExprReaders.all fuel).above c1 (strength + 1)).weaken fun _ => trivial
      refine hright.congr fun right c2 h2 _ _ => ?_
      refine (reads_freshNode _).congr fun n c3 h3 _ _ => ?_
      exact h _ _ (h3.trans (h2.trans h1)) (by omega)
    | none =>
      refine reads_readType.congr fun target c2 h2 _ _ => previousSpan_congr ?_
      refine (reads_freshNode _).congr fun n c3 h3 _ _ => ?_
      exact h _ _ (h3.trans (h2.trans h1)) (by omega)

theorem repeats_members : Repeats readMembers fun fuel => membersTurn (readArgs fuel) := by
  refine fun fuel => ⟨rfl, fun next next' object c h => ?_⟩
  refine (reads_take? _).congr fun b c1 h1 _ _ => ?_
  split
  · refine reads_readName.congr fun member c2 h2 _ ⟨_, _, _⟩ => at?_congr ?_
    split
    · have hargs := ((ExprReaders.all fuel).args c2).weaken fun _ => trivial
      refine hargs.congr fun args c3 h3 _ _ => previousSpan_congr ?_
      refine (reads_freshNode _).congr fun n c4 h4 _ _ => ?_
      exact h _ _ (h4.trans (h3.trans (h2.trans h1))) (by omega)
    · refine previousSpan_congr ((reads_freshNode _).congr fun n c3 h3 _ _ => ?_)
      exact h _ _ (h3.trans (h2.trans h1)) (by omega)
  · rfl

theorem repeats_list {α : Type} {read : Nat → Reader (List α)} {element : Nat → Reader α}
    {P : Cursor → α → Cursor → Prop} (hread : ∀ fuel, read (fuel + 1) = listTurn (element fuel) (read fuel))
    (helement : ∀ fuel c, Reads True c (element fuel) (P c)) :
    Repeats (fun fuel (_ : Unit) => read fuel) fun fuel next _ => listTurn (element fuel) (next ()) := by
  refine fun fuel => ⟨funext fun _ => hread fuel, fun next next' _ c h => peek_congr ?_⟩
  split
  · rfl
  refine (helement fuel c).congr fun x c1 h1 _ _ => ?_
  refine (reads_take? _).congr fun b c2 h2 _ hcomma => ?_
  split
  · next hb =>
    have hlt := hcomma hb nofun
    exact bind_congr_left (h _ _ (h2.trans h1) (by omega))
  · rfl

theorem repeats_fields : Repeats (fun fuel (_ : Unit) => readFields fuel)
    fun _ next _ => fieldsTurn (next ()) := by
  refine fun fuel => ⟨rfl, fun next next' _ c h => peek_congr ?_⟩
  split
  · rfl
  refine reads_readTypedName.congr fun field c1 h1 _ ⟨_, _⟩ => ?_
  refine (reads_take? _).congr fun _ c2 h2 _ _ => ?_
  exact bind_congr_left (h _ _ (h2.trans h1) (by omega))

theorem repeats_stmts : Repeats (fun fuel (_ : Unit) => readStmts fuel)
    fun fuel next _ => stmtsTurn (readStmt fuel) (next ()) := by
  refine fun fuel => ⟨rfl, fun next next' _ c h => peek_congr ?_⟩
  split
  · rfl
  next hkind =>
  have hpos : 0 < c.left := Cursor.left_pos fun h => hkind (by simp [h])
  refine (reads_take? _).congr fun semi c1 h1 _ hsemi => ?_
  split
  · next hb => exact h _ _ h1 (hsemi hb nofun)
  refine get_congr ?_
  have hread := ((StmtReaders.all fuel).stmt c1).weaken fun _ => trivial
  refine hread.recover_congr (fun _ => rfl) (fun _ => rfl) (fun stmt c2 h2 _ ⟨_, _⟩ => ?_)
    fun e c2 h2 _ => get_congr ?_
  · exact bind_congr_left (h _ _ (h2.trans h1) (by omega))
  · have skip {c4 : Cursor} (h4 : c4.ahead <:+ c.ahead) (hlt : c4.left < c.left) :
        (modify (Cursor.skipBalanced resumesStmt) >>= fun _ => next () : Reader _) c4 =
          (modify (Cursor.skipBalanced resumesStmt) >>= fun _ => next' () : Reader _) c4 := by
      have hskip : c4.Later True _ := c4.later_skipBalanced resumesStmt
      exact h _ _ (hskip.ahead.trans h4) (Nat.lt_of_le_of_lt hskip.left_le hlt)
    split
    · exact reads_advance.congr fun _ c3 h3 _ ⟨_, _, _⟩ =>
        skip (h3.trans (h2.trans h1)) (by omega)
    · next hmoved =>
      have hmoved : c2.left ≠ c1.left := fun h => hmoved (beq_iff_eq.mpr h)
      exact skip (h2.trans h1) (by omega)

theorem repeats_items : Repeats (fun fuel (_ : Unit) => readItems fuel)
    fun fuel next _ => itemsTurn (readItem fuel) (next ()) := by
  refine fun fuel => ⟨rfl, fun next next' _ c h => peek_congr ?_⟩
  split
  · rfl
  next hkind =>
  have hpos : 0 < c.left := Cursor.left_pos fun h => hkind (by simp [h])
  refine (reads_take? _).congr fun semi c1 h1 _ hsemi => ?_
  split
  · next hb => exact h _ _ h1 (hsemi hb nofun)
  refine get_congr ?_
  have hread := (reads_readItem (c := c1) fuel).weaken fun _ => trivial
  refine hread.recover_congr (fun _ => rfl) (fun _ => rfl) (fun item c2 h2 _ ⟨_, _⟩ => ?_)
    fun e c2 h2 _ => get_congr ?_
  · exact bind_congr_left (h _ _ (h2.trans h1) (by omega))
  · have hstep : c2.Later True _ := c2.later_advance
    have hskip : c2.advance.Later True _ := c2.advance.later_skipUntil beginsItem
    have hskipped := hskip.left_le
    rw [c2.left_advance] at hskipped
    split
    · exact h _ _ (hskip.ahead.trans (hstep.ahead.trans (h2.trans h1))) (by omega)
    · next hmoved =>
      have hmoved : c2.left ≠ c1.left := fun h => hmoved (by simp [h])
      exact h _ _ (h2.trans h1) (by omega)

/-! ## Whole lists -/

theorem bind_eq_error {k : α → Reader β} (h : (r >>= k) c = .error e c') :
    r c = .error e c' ∨ ∃ a c1, r c = .ok a c1 ∧ k a c1 = .error e c' := by
  change EStateM.bind r k c = _ at h
  unfold EStateM.bind at h
  cases hr : r c with
  | ok a c1 =>
    rw [hr] at h
    exact .inr ⟨a, c1, rfl, h⟩
  | error e' c1 =>
    rw [hr] at h
    exact .inl (by simpa using h)

theorem take?_ne_error : take? kind c ≠ .error e c' := by
  change (if c.current.kind == kind then _ else _ : Reader Bool) c ≠ _
  split <;> nofun

theorem attempt_ne_error : attempt r c ≠ .error e c' := by
  unfold attempt
  split <;> nofun

theorem exists_of_itemsTurn_eq_error (h : itemsTurn r next c = .error e c') :
    ∃ c1, next c1 = .error e c' := by
  unfold itemsTurn at h
  change (if c.current.kind == .endOfFile then _ else _ : Reader _) c = _ at h
  split at h
  · cases h
  obtain h | ⟨semi, c1, -, h⟩ := bind_eq_error h
  · exact absurd h take?_ne_error
  split at h
  · exact ⟨_, h⟩
  obtain h | ⟨result, c2, -, h⟩ := bind_eq_error (r := attempt r) h
  · exact absurd h attempt_ne_error
  split at h
  · obtain h | ⟨items, c3, -, h⟩ := bind_eq_error h
    · exact ⟨_, h⟩
    · cases h
  · change (if _ then _ else next : Reader _) _ = _ at h
    split at h
    · exact ⟨_, h⟩
    · exact ⟨_, h⟩

theorem exhausted_of_readItems (h : readItems fuel c = .error e c') : e.cause = .exhausted := by
  induction fuel generalizing c with
  | zero =>
    cases h
    rfl
  | succ fuel ih =>
    obtain ⟨c1, h⟩ := exists_of_itemsTurn_eq_error h
    exact ih h

theorem Cursor.left_ofTokens (tokens : List Token) (firstId : Nat) :
    (Cursor.ofTokens tokens firstId).left ≤ tokens.length := by
  unfold Cursor.left Cursor.ofTokens
  dsimp only
  split
  · exact (List.dropLast_sublist _).length_le
  · exact Nat.le_refl _

/-- Reading any list of tokens reaches the end of the file within its budget. On the way no reader moves
back and no loop goes on where it began a turn; skipping to the next statement is a loop, too. -/
theorem reading_progresses (tokens : List Token) (firstId : Nat) :
    (∃ items c, readItems (budget tokens) (.ofTokens tokens firstId) = .ok items c ∧
      c.ahead <:+ (Cursor.ofTokens tokens firstId).ahead ∧ c.current.kind = .endOfFile ∧
      ∀ e ∈ c.mistakes, e.cause ≠ .exhausted) ∧
    (∀ fuel, Forward (readItems fuel) ∧ Forward (readStmts fuel) ∧ Forward (readFields fuel) ∧
      Forward (readParamList fuel) ∧ Forward (readArgList fuel) ∧ Forward (readExpr fuel)) ∧
    Repeats (fun fuel (_ : Unit) => readItems fuel)
      (fun fuel next _ => itemsTurn (readItem fuel) (next ())) ∧
    Repeats (fun fuel (_ : Unit) => readStmts fuel)
      (fun fuel next _ => stmtsTurn (readStmt fuel) (next ())) ∧
    Repeats (fun fuel (_ : Unit) => readFields fuel) (fun _ next _ => fieldsTurn (next ())) ∧
    Repeats (fun fuel (_ : Unit) => readParamList fuel)
      (fun _ next _ => listTurn readTypedName (next ())) ∧
    Repeats (fun fuel (_ : Unit) => readArgList fuel)
      (fun fuel next _ => listTurn (readExprAbove fuel 0) (next ())) ∧
    Repeats readMembers (fun fuel => membersTurn (readArgs fuel)) ∧
    (∀ least, Repeats (readOperators · least) fun fuel => operatorsTurn least (readExprAbove fuel)) ∧
    ∀ stop c depth previous t rest,
      Cursor.skipBalanced.go stop c depth previous (t :: rest) =
          { c with previous := previous, ahead := t :: rest } ∨
        ∃ depth', Cursor.skipBalanced.go stop c depth previous (t :: rest) =
          Cursor.skipBalanced.go stop c depth' t.span rest := by
  refine ⟨?_, fun fuel => ⟨Reads.forward fun _ => reads_readItems fuel,
    Reads.forward (StmtReaders.all fuel).stmts, Reads.forward fun _ => reads_readFields fuel,
    Reads.forward fun _ => reads_readParamList fuel, Reads.forward (ExprReaders.all fuel).argList,
    Reads.forward fun _ => reads_readExpr fuel⟩, repeats_items, repeats_stmts, repeats_fields,
    repeats_list (fun _ => rfl) fun _ _ => reads_readTypedName,
    repeats_list (fun _ => rfl) fun fuel c => ((ExprReaders.all fuel).above c 0).weaken fun _ => trivial,
    repeats_members, repeats_operators, Cursor.skipBalanced_go_cons⟩
  have hle := Cursor.left_ofTokens tokens firstId
  have hread := (reads_readItems (c := .ofTokens tokens firstId) (budget tokens)).weaken
    (show _ → False by unfold budget; omega)
  unfold Reads at hread
  cases hr : readItems (budget tokens) (.ofTokens tokens firstId) with
  | error e c =>
    rw [hr] at hread
    exact (hread.2.cause (exhausted_of_readItems hr)).elim
  | ok items c =>
    rw [hr] at hread
    obtain ⟨hlater, hend, -⟩ := hread
    refine ⟨items, c, rfl, hlater.ahead, hend, fun e he hcause => ?_⟩
    exact (hlater.mistakes e he).elim List.not_mem_nil fun hb => hb.cause hcause

end StructLang.Tree
