import StructLang.Proofs.Grammar
import StructLang.Proofs.Partition
import StructLang.Proofs.Places
import StructLang.Tree.ReadProgram

/-!
# Reading keeps the grammar's guarantees

`Reads short c r P` says of a reader started at a cursor that it only moves forward, that it never turns
the node counter back, that its step budget runs out only if it is `short`, that a mistake stands in the
text if the tokens do, and that a result satisfies `P`. Each reader has one such statement, and readers in
sequence compose by `Reads.bind`. A `Stretch` is what lies between two cursors: the numbers of the nodes
that were read there, and their places.
-/

namespace StructLang.Tree

open SpanTree

/-! ## Moving on -/

namespace Cursor

def Lexed (c : Cursor) : Prop := ∀ t ∈ c.ahead, ∀ s, t.kind = .name s → IsName s

def spans (c : Cursor) : List Span := c.ahead.map Token.span ++ [c.finish]

/-- The tokens ahead stand in a text one behind the other, and so does the one before them. -/
structure Placed (r : Ruler) (c : Cursor) : Prop where
  fits : ∀ s ∈ c.previous :: c.spans, r.Fits s
  sorted : c.spans.Pairwise fun s s' => s.stop ≤ s'.start

def behind (c : Cursor) : Nat := min c.previous.stop c.current.span.start

/-- The cursor moves forward, and so does the node counter. -/
structure Moves (c c' : Cursor) : Prop where
  ahead : c'.ahead <:+ c.ahead
  track : c'.previous :: c'.spans <:+ c.previous :: c.spans
  nextId_le : c.nextId ≤ c'.nextId

/-- A mistake that stands in the text. It is an exhausted budget only if that was `short`. -/
structure Blames (short : Prop) (c : Cursor) (e : SyntaxError) : Prop where
  cause : e.cause = .exhausted → short
  span : ∀ r, c.Placed r → r.Fits e.span

/-- What every reader does to a cursor, whether it fails or not. -/
structure Later (short : Prop) (c c' : Cursor) : Prop extends Moves c c' where
  mistakes : ∀ e ∈ c'.mistakes, e ∈ c.mistakes ∨ c.Blames short e

variable {c : Cursor}

theorem spans_eq (c : Cursor) : ∃ rest, c.spans = c.current.span :: rest := by
  unfold spans current
  cases c.ahead <;> exact ⟨_, rfl⟩

theorem Placed.current (h : c.Placed r) : r.Fits c.current.span := by
  obtain ⟨rest, hrest⟩ := c.spans_eq
  exact h.fits _ (.tail _ (hrest ▸ .head _))

namespace Moves

theorem refl (c : Cursor) : c.Moves c := ⟨List.suffix_refl _, List.suffix_refl _, Nat.le_refl _⟩

theorem trans (h : c.Moves c') (h' : c'.Moves c'') : c.Moves c'' :=
  ⟨h'.ahead.trans h.ahead, h'.track.trans h.track, Nat.le_trans h.nextId_le h'.nextId_le⟩

variable (h : c.Moves c')
include h

theorem left_le : c'.left ≤ c.left := h.ahead.length_le

theorem lexed (hc : c.Lexed) : c'.Lexed := fun t ht => hc t (h.ahead.subset ht)

variable (hc : c.Placed r)
include hc

theorem placed : c'.Placed r := by
  refine ⟨fun s hs => hc.fits s (h.track.subset hs), ?_⟩
  rcases List.suffix_cons_iff.mp h.track with heq | hsuffix
  · exact (List.cons.inj heq).2 ▸ hc.sorted
  · exact (List.pairwise_cons.mp (hc.sorted.sublist hsuffix.sublist)).2

theorem reached (hlt : c'.left < c.left) :
    c.behind ≤ c'.previous.start ∧ c'.behind = c'.previous.stop := by
  obtain ⟨rest, hrest⟩ := c.spans_eq
  obtain ⟨rest', hrest'⟩ := c'.spans_eq
  rcases List.suffix_cons_iff.mp h.track with heq | hsuffix
  · have hlength := congrArg List.length (List.cons.inj heq).2
    simp only [spans, List.length_append, List.length_map, List.length_singleton] at hlength
    unfold left at hlt
    omega
  · have hnext := (List.pairwise_cons.mp (hc.sorted.sublist hsuffix.sublist)).1 c'.current.span
      (hrest' ▸ .head _)
    have hprevious := hsuffix.subset (.head _)
    have hsorted := hc.sorted
    rw [hrest] at hprevious hsorted
    have hfirst : c.current.span.start ≤ c'.previous.start := by
      rcases List.mem_cons.mp hprevious with heq | hmem
      · rw [heq]
      · exact Nat.le_trans (r.le hc.current) ((List.pairwise_cons.mp hsorted).1 _ hmem)
    unfold behind
    omega

theorem behind_le : c.behind ≤ c'.behind := by
  rcases Nat.lt_or_eq_of_le h.left_le with hlt | heq
  · obtain ⟨hle, hbehind⟩ := h.reached hc hlt
    exact hbehind ▸ Nat.le_trans hle (r.le ((h.placed hc).fits _ (.head _)))
  · have htrack := h.track.eq_of_length (by simpa [spans, left] using heq)
    obtain ⟨rest, hrest⟩ := c.spans_eq
    obtain ⟨rest', hrest'⟩ := c'.spans_eq
    rw [hrest, hrest'] at htrack
    unfold behind
    rw [(List.cons.inj htrack).1, (List.cons.inj (List.cons.inj htrack).2).1]

end Moves

theorem Blames.of_moves (h : c.Moves c') (he : c'.Blames short e) : c.Blames short e :=
  ⟨he.cause, fun r hc => he.span r (h.placed hc)⟩

namespace Later

theorem refl (c : Cursor) : c.Later short c := ⟨.refl c, fun _ he => .inl he⟩

theorem trans (h : c.Later short c') (h' : c'.Later short c'') : c.Later short c'' :=
  ⟨h.toMoves.trans h'.toMoves, fun e he => (h'.mistakes e he).elim (h.mistakes e) fun hb =>
    .inr (hb.of_moves h.toMoves)⟩

theorem weaken (h : c.Later short c') (hs : short → short') : c.Later short' c' :=
  ⟨h.toMoves, fun e he => (h.mistakes e he).imp_right fun hb => ⟨hs ∘ hb.cause, hb.span⟩⟩

theorem of_suffix {previous : Span} {ahead : List Token} (h : ahead <:+ c.ahead)
    (ht : previous :: (ahead.map Token.span ++ [c.finish]) <:+ c.previous :: c.spans) :
    c.Later short { c with previous := previous, ahead := ahead } :=
  ⟨⟨h, ht, Nat.le_refl _⟩, fun _ he => .inl he⟩

end Later

end Cursor

/-- What lies between two cursors: the numbers of the nodes that were read, and their places. -/
structure Stretch (c c' : Cursor) (ids : List Nat) (ts : List SpanTree) : Prop
    extends c.Moves c' where
  ids : Numbered c.nextId c'.nextId ids
  places : ∀ r, c.Placed r → InOrder r c.behind c'.behind ts

variable {c : Cursor}

section

variable {ids : List Nat}

theorem Cursor.Moves.stretch (h : c.Moves c') : Stretch c c' [] [] :=
  ⟨h, .nil, fun _ hc => h.behind_le hc⟩

theorem Cursor.Moves.token (h : c.Moves c') (hlt : c'.left < c.left) :
    Stretch c c' [] [.node c'.previous []] := by
  refine ⟨h, .nil, fun r hc => ?_⟩
  obtain ⟨hle, hbehind⟩ := h.reached hc hlt
  have hfits := (h.placed hc).fits _ (.head _)
  exact ⟨hle, ⟨hfits, r.le hfits⟩, Nat.le_of_eq hbehind.symm⟩

namespace Stretch

theorem append (h : Stretch c c' ids ts) (h' : Stretch c' c'' ids' ts') :
    Stretch c c'' (ids ++ ids') (ts ++ ts') :=
  ⟨h.toMoves.trans h'.toMoves, h.ids.append h'.ids h.nextId_le h'.nextId_le,
    fun r hc => (h.places r hc).append (h'.places r (h.placed hc))⟩

theorem before (hl : c.Later short c') (h : Stretch c' c'' ids ts) : Stretch c c'' ids ts :=
  hl.stretch.append h

theorem after (h : Stretch c c' ids ts) (hl : c'.Later short c'') : Stretch c c'' ids ts := by
  simpa using h.append hl.stretch

theorem perm (h : Stretch c c' ids ts) (hp : ids.Perm ids') : Stretch c c' ids' ts :=
  ⟨h.toMoves, h.ids.perm hp, h.places⟩

theorem enclose (h : Stretch c c' ids (t :: ts))
    (hlast : ∀ r, c.Placed r → InOrder r c.behind c'.behind (t :: ts) → r.Fits s ∧
      c.behind ≤ s.start ∧ s.stop ≤ c'.behind ∧ InOrder r t.span.stop s.stop ts) :
    Stretch c c' ids [.node (t.span.merge s) (t :: ts)] ∧
      Stretch c c' ids [.node (t.span.merge s) ts] := by
  have hnode : ∀ us, (∀ r, t.Nested r → InOrder r t.span.stop s.stop ts →
      InOrder r t.span.start s.stop us) → Stretch c c' ids [.node (t.span.merge s) us] := by
    intro us hus
    refine ⟨h.toMoves, h.ids, fun r hc => ?_⟩
    obtain ⟨hfits, hlo, hhi, hin⟩ := hlast r hc (h.places r hc)
    obtain ⟨hstart, ht, hrest⟩ := h.places r hc
    refine ⟨Nat.le_min.mpr ⟨hstart, hlo⟩, ⟨r.merge ht.fits hfits, ?_⟩, Nat.max_le.mpr ⟨hrest.le, hhi⟩⟩
    exact (hus r ht hin).mono (Nat.min_le_left ..) (Nat.le_max_right ..)
  exact ⟨hnode _ fun r ht hin => ⟨Nat.le_refl _, ht, hin⟩,
    hnode _ fun r ht hin => hin.mono ht.le (Nat.le_refl _)⟩

theorem pair (h : Stretch c c' ids [t, u]) :
    Stretch c c' ids [.node (t.span.merge u.span) [t, u]] ∧
      Stretch c c' ids [.node (t.span.merge u.span) [u]] :=
  h.enclose fun _ _ ⟨hlo, ht, hle, hu, hhi⟩ =>
    ⟨hu.fits, Nat.le_trans hlo (Nat.le_trans ht.le hle), hhi, hle, hu, Nat.le_refl _⟩

theorem upTo (h : Stretch c c' ids (t :: ts)) (hlt : c'.left < c.left) :
    Stretch c c' ids [.node (t.span.merge c'.previous) (t :: ts)] ∧
      Stretch c c' ids [.node (t.span.merge c'.previous) ts] := by
  refine h.enclose fun r hc hin => ?_
  obtain ⟨hle, hbehind⟩ := h.reached hc hlt
  exact ⟨(h.placed hc).fits _ (.head _), hle, Nat.le_of_eq hbehind.symm, hbehind ▸ hin.2.2⟩

theorem number {n : Node} (h : Stretch c c' ids [.node s ts])
    (hn : n.span = s ∧ Stretch c' c'' [n.id] []) :
    Stretch c c'' (ids ++ [n.id]) [.node n.span ts] :=
  hn.1 ▸ h.append hn.2

end Stretch

end

def Reads {α : Type} (short : Prop) (c : Cursor) (r : Reader α) (P : α → Cursor → Prop) : Prop :=
  match r c with
  | .ok a c' => c.Later short c' ∧ P a c'
  | .error e c' => c.Later short c' ∧ c.Blames short e

namespace Reads

variable {α β : Type}

theorem pure {a : α} (h : P a c) : Reads short c (pure a) P := ⟨.refl c, h⟩

theorem throw {e : SyntaxError} (h : c.Blames short e) : Reads short c (throw e) P := ⟨.refl c, h⟩

theorem mono {P' : α → Cursor → Prop} (h : Reads short c r P)
    (hP : ∀ a c', c.Later short c' → c'.left ≤ c.left → P a c' → P' a c') :
    Reads short c r P' := by
  unfold Reads at *
  split at h
  · exact ⟨h.1, hP _ _ h.1 h.1.left_le h.2⟩
  · exact h

theorem weaken {short' : Prop} (h : Reads short c r P) (hs : short → short') :
    Reads short' c r P := by
  unfold Reads at *
  split at h
  · exact ⟨h.1.weaken hs, h.2⟩
  · exact ⟨h.1.weaken hs, hs ∘ h.2.cause, h.2.span⟩

theorem resume (hl : c.Later short c') (heq : r c = r' c') (h : Reads short c' r' P) :
    Reads short c r P := by
  unfold Reads at *
  rw [heq]
  split at h
  · exact ⟨hl.trans h.1, h.2⟩
  · exact ⟨hl.trans h.1, h.2.of_moves hl.toMoves⟩

theorem bind {k : α → Reader β} (h : Reads short c r P)
    (hk : ∀ a c', c.Later short c' → c'.left ≤ c.left → P a c' → Reads short c' (k a) Q) :
    Reads short c (r >>= k) Q := by
  change Reads short c (EStateM.bind r k) Q
  unfold Reads at h
  cases hr : r c with
  | error e c' =>
    rw [hr] at h
    simpa only [Reads, EStateM.bind, hr] using h
  | ok a c' =>
    rw [hr] at h
    exact resume h.1 (by rw [EStateM.bind, hr]) (hk a c' h.1 h.1.left_le h.2)

theorem map {f : α → β} (h : Reads short c r P)
    (hf : ∀ a c', P a c' → Q (f a) c') : Reads short c (f <$> r) Q :=
  h.bind fun a c' _ _ ha => pure (hf a c' ha)

theorem throw_after (h : Reads short c r P) (he : c.Blames short e) :
    Reads short c (r >>= fun _ => MonadExcept.throw e) Q := by
  change Reads short c (EStateM.bind r _) Q
  unfold Reads EStateM.bind at *
  cases hr : r c <;> rw [hr] at h
  · exact ⟨h.1, he⟩
  · exact h

theorem recover {k : Except SyntaxError α → Reader β} {k' : SyntaxError → Unit → Reader β}
    (h : Reads short c r P) (hk : ∀ e, k (.error e) = record e >>= k' e)
    (hok : ∀ a c', c.Later short c' → c'.left ≤ c.left → P a c' → Reads short c' (k (.ok a)) Q)
    (herror : ∀ e c', c.Later short c' → c'.left ≤ c.left → Reads short c' (k' e ()) Q) :
    Reads short c (attempt r >>= k) Q := by
  change Reads short c (EStateM.bind (attempt r) k) Q
  unfold Reads at h
  cases hr : r c with
  | ok a c' =>
    rw [hr] at h
    exact resume h.1 (by simp only [EStateM.bind, attempt, hr]) (hok a c' h.1 h.1.left_le h.2)
  | error e c' =>
    rw [hr] at h
    have hlater : c.Later short { c' with mistakes := c'.mistakes ++ [e] } := by
      refine ⟨⟨h.1.ahead, h.1.track, h.1.nextId_le⟩, fun e' he' => ?_⟩
      rcases List.mem_append.mp he' with he' | he'
      · exact h.1.mistakes e' he'
      · exact .inr (List.mem_singleton.mp he' ▸ h.2)
    exact resume hlater (by simp only [EStateM.bind, attempt, hr, hk]; rfl)
      (herror e _ hlater hlater.left_le)

theorem ite_bind [Decidable b] (h : b → Reads short c r P) (h' : ¬b → Reads short c r' P)
    (hk : ∀ a c', c.Later short c' → c'.left ≤ c.left → P a c' → Reads short c' (k a) Q) :
    Reads short c (if b then r >>= k else r' >>= k) Q := by
  split
  · next hb => exact (h hb).bind hk
  · next hb => exact (h' hb).bind hk

/-! ### Looking at the cursor -/

theorem get {k : Cursor → Reader β} (h : Reads short c (k c) Q) : Reads short c (get >>= k) Q := h

theorem peek {k : Token.Kind → Reader β} (h : Reads short c (k c.current.kind) Q) :
    Reads short c (peek >>= k) Q := h

theorem at? {k : Bool → Reader β} (h : Reads short c (k (c.current.kind == kind)) Q) :
    Reads short c (at? kind >>= k) Q := h

theorem peekSpan (h : Reads short c (k c.current.span) Q) : Reads short c (peekSpan >>= k) Q := h

theorem previousSpan (h : Reads short c (k c.previous) Q) :
    Reads short c (previousSpan >>= k) Q := h

end Reads

/-! ## Single tokens -/

theorem Cursor.left_pos (h : c.current.kind ≠ .endOfFile) : 0 < c.left := by
  unfold Cursor.current at h
  unfold Cursor.left
  cases ha : c.ahead with
  | nil => simp [ha] at h
  | cons t rest => exact Nat.succ_pos _

theorem Cursor.later_advance (c : Cursor) : c.Later short c.advance := by
  unfold Cursor.advance
  split
  · next t rest ha =>
    exact .of_suffix (ha ▸ List.suffix_cons t rest) (by rw [spans, ha]; exact List.suffix_cons _ _)
  · exact .refl c

theorem Cursor.left_advance (c : Cursor) : c.advance.left = c.left - 1 := by
  unfold Cursor.advance Cursor.left
  split <;> next ha => rw [ha]; rfl

/-- What stepping over a token gives. -/
structure TokenRead (c : Cursor) (s : Span) (c' : Cursor) : Prop where
  left : c'.left < c.left
  span : s = c'.previous

theorem reads_advance : Reads short c advance fun t c' => t = c.current ∧ c'.left = c.left - 1 ∧
    (t.kind ≠ .endOfFile → TokenRead c t.span c') ∧ ∀ r, c'.Placed r → r.Fits t.span := by
  refine ⟨c.later_advance, rfl, c.left_advance, fun hne => ⟨?_, ?_⟩, ?_⟩
  · have := Cursor.left_pos hne
    rw [c.left_advance]
    omega
  · unfold Cursor.advance Cursor.current at *
    split
    · rfl
    · next ha => simp [ha] at hne
  · unfold Cursor.advance Cursor.current
    split
    · exact fun r hc => hc.fits _ (.head _)
    · next ha => exact fun r hc => by simpa [Cursor.current, ha] using hc.current

theorem reads_freshId : Reads short c freshId fun i c' => Stretch c c' [i] [] := by
  have h : c.Moves { c with nextId := c.nextId + 1 } :=
    ⟨List.suffix_refl _, List.suffix_refl _, Nat.le_succ _⟩
  exact ⟨⟨h, fun _ he => .inl he⟩, h, .single _ (Nat.le_refl _) (Nat.lt_succ_self _),
    fun r hc => h.behind_le hc⟩

theorem reads_unexpected (e : Expectation) :
    Reads short c (unexpected e) P := ⟨.refl c, nofun, fun _ hc => hc.current⟩

theorem reads_exhausted {α : Type} {P : α → Cursor → Prop} (h : short) :
    Reads short c (exhausted) P := ⟨.refl c, fun _ => h, fun _ hc => hc.current⟩

theorem reads_advance_of (h : c.current.kind ≠ .endOfFile) :
    Reads short c advance fun t c' => TokenRead c t.span c' :=
  reads_advance.mono fun _ _ _ _ ht => ht.2.2.1 (ht.1 ▸ h)

theorem reads_take? (kind : Token.Kind) : Reads short c (take? kind) fun b c' =>
    b = true → kind ≠ .endOfFile → c'.left < c.left := by
  unfold take?
  refine .at? ?_
  split
  · next hk =>
    refine reads_advance.bind fun t c' _ _ ⟨ht, _, htoken, _⟩ => .pure fun _ hne => ?_
    exact (htoken (ht ▸ eq_of_beq hk ▸ hne)).left
  · exact .pure nofun

theorem reads_expectSymbol (mark : Symbol) : Reads short c (expectSymbol mark) (TokenRead c) := by
  unfold expectSymbol
  refine .at? ?_
  split
  · next hk => exact (reads_advance_of (eq_of_beq hk ▸ nofun)).bind fun _ _ _ _ ht => .pure ht
  · exact reads_unexpected _

theorem reads_expectKeyword (word : Keyword) : Reads short c (expectKeyword word) (TokenRead c) := by
  unfold expectKeyword
  refine .at? ?_
  split
  · next hk => exact (reads_advance_of (eq_of_beq hk ▸ nofun)).bind fun _ _ _ _ ht => .pure ht
  · exact reads_unexpected _

theorem Cursor.Lexed.current (hc : c.Lexed) (h : c.current.kind = .name s) : IsName s := by
  unfold Cursor.current at h
  cases ha : c.ahead with
  | nil => simp [ha] at h
  | cons t rest =>
    rw [ha] at h
    exact hc t (by simp [ha]) s h

theorem reads_readName : Reads short c readName fun s c' =>
    c'.left < c.left ∧ c'.previous = c.current.span ∧ (c.Lexed → IsName s) := by
  unfold readName
  refine .peek ?_
  split
  · next s hs =>
    refine reads_advance.bind fun t c' _ _ ⟨ht, _, htoken, _⟩ => .pure ?_
    have htoken := htoken (ht ▸ hs ▸ nofun)
    exact ⟨htoken.left, ht ▸ htoken.span.symm, fun hc => hc.current hs⟩
  · exact reads_unexpected _

theorem proper_of_typeOf? (h : typeOf? kind = some ty) : ty.Proper := by
  unfold typeOf? at h
  split at h <;> cases h <;> simp [Ty.Proper]

theorem reads_readType : Reads short c readType fun ty c' => c'.left < c.left ∧ ty.Proper := by
  unfold readType
  refine reads_advance.bind fun t c' _ _ ⟨_, _, htoken, hfits⟩ => ?_
  split
  · next ty hty =>
    exact .pure ⟨(htoken fun h => by rw [h] at hty; cases hty).left, proper_of_typeOf? hty⟩
  · exact .throw ⟨nofun, hfits⟩

theorem reads_freshNode (span : Span) : Reads short c (freshNode span) fun n c' =>
    n.span = span ∧ Stretch c c' [n.id] [] := by
  unfold freshNode
  exact reads_freshId.bind fun i c' _ _ hi => .pure ⟨rfl, hi⟩

/-! ## Expressions -/

def ExprRead (c : Cursor) (e : Expr) (c' : Cursor) : Prop :=
  c'.left < c.left ∧ Stretch c c' e.ids [e.places]

/-- What the readers of expressions guarantee with a step budget, and how much of it is enough. Behind an
operand that began at a cursor `c0`, the readers of infix operators and members keep that start. -/
structure ExprReaders (fuel : Nat) : Prop where
  above : ∀ c least, Reads (fuel < 4 * c.left + 3) c (readExprAbove fuel least) (ExprRead c)
  operators : ∀ c0 c least left, Stretch c0 c left.ids [left.places] →
    Reads (fuel < 4 * c.left + 1) c (readOperators fuel least left) fun e c' =>
      Stretch c0 c' e.ids [e.places]
  operand : ∀ c, Reads (fuel < 4 * c.left + 2) c (readOperand fuel) (ExprRead c)
  members : ∀ c0 c object, Stretch c0 c object.ids [object.places] →
    Reads (fuel < 4 * c.left + 1) c (readMembers fuel object) fun e c' =>
      Stretch c0 c' e.ids [e.places]
  primary : ∀ c, Reads (fuel < 4 * c.left + 1) c (readPrimary fuel) (ExprRead c)
  args : ∀ c, Reads (fuel < 4 * c.left + 1) c (readArgs fuel) fun es c' =>
    c'.left < c.left ∧ Stretch c c' (idsOfAll es) (placesOfAll es)
  argList : ∀ c, Reads (fuel < 4 * c.left + 4) c (readArgList fuel) fun es c' =>
    Stretch c c' (idsOfAll es) (placesOfAll es)

namespace ExprReaders

theorem zero : ExprReaders 0 where
  above _ _ := reads_exhausted (Nat.succ_pos _)
  operators _ _ _ _ _ := reads_exhausted (Nat.succ_pos _)
  operand _ := reads_exhausted (Nat.succ_pos _)
  members _ _ _ _ := reads_exhausted (Nat.succ_pos _)
  primary _ := reads_exhausted (Nat.succ_pos _)
  args _ := reads_exhausted (Nat.succ_pos _)
  argList _ := reads_exhausted (Nat.succ_pos _)

variable (ih : ExprReaders fuel)
include ih

theorem above_succ (c : Cursor) (least : Nat) :
    Reads (fuel + 1 < 4 * c.left + 3) c (readExprAbove (fuel + 1) least) (ExprRead c) := by
  unfold readExprAbove
  refine ((ih.operand c).weaken (by omega)).bind fun left c1 _ _ ⟨_, hl⟩ => ?_
  exact ((ih.operators c c1 least left hl).weaken (by omega)).mono fun e c2 _ _ he => ⟨by omega, he⟩

theorem operators_succ (c0 c : Cursor) (least : Nat) (left : Expr)
    (hleft : Stretch c0 c left.ids [left.places]) :
    Reads (fuel + 1 < 4 * c.left + 1) c (readOperators (fuel + 1) least left) fun e c' =>
      Stretch c0 c' e.ids [e.places] := by
  unfold readOperators operatorsTurn
  refine .peek ?_
  split
  · exact .pure hleft
  next hkind =>
  have hne : c.current.kind ≠ .endOfFile := fun h => by rw [h] at hkind; cases hkind
  split
  · exact .pure hleft
  have hle := hleft.left_le
  refine (reads_advance_of hne).bind fun _ c1 h1 _ ⟨_, _⟩ => ?_
  split
  · next op _ =>
    refine ((ih.above c1 _).weaken (by omega)).bind fun right c2 h2 _ ⟨_, hr⟩ => ?_
    refine (reads_freshNode _).bind fun n c3 _ _ hn => ?_
    have hnode := (hleft.append (hr.before h1)).pair.1
    rw [left.span_places, right.span_places] at hnode
    exact (ih.operators c0 c3 least (.binary n op left right)
      (by rw [Expr.ids]; exact hnode.number hn)).weaken (by omega)
  · refine reads_readType.bind fun target c2 h2 _ ⟨_, _⟩ => .previousSpan ?_
    refine (reads_freshNode _).bind fun n c3 _ _ hn => ?_
    have hnode := ((hleft.after h1).after h2).upTo (by omega)
    rw [left.span_places] at hnode
    exact (ih.operators c0 c3 least (.cast n left target)
      (by rw [Expr.ids]; exact hnode.1.number hn)).weaken (by omega)

theorem operand_succ (c : Cursor) :
    Reads (fuel + 1 < 4 * c.left + 2) c (readOperand (fuel + 1)) (ExprRead c) := by
  unfold readOperand
  refine .peek ?_
  split
  · next op hop =>
    have hne : c.current.kind ≠ .endOfFile := fun h => by rw [h] at hop; cases hop
    refine (reads_advance_of hne).bind fun t c1 h1 _ ⟨hlt, ht⟩ => ?_
    refine ((ih.operand c1).weaken (by omega)).bind fun operand c2 _ _ ⟨_, he⟩ => ?_
    refine (reads_freshNode _).bind fun n c3 _ _ hn => .pure ⟨by omega, ?_⟩
    have hnode := ((h1.token hlt).append he).pair.2
    rw [operand.span_places] at hnode
    rw [Expr.ids]
    exact hnode.number (ht ▸ hn)
  · refine ((ih.primary c).weaken (by omega)).bind fun e c1 _ _ ⟨_, he⟩ => ?_
    exact ((ih.members c c1 e he).weaken (by omega)).mono fun e' c2 _ _ he' => ⟨by omega, he'⟩

theorem members_succ (c0 c : Cursor) (object : Expr)
    (hobj : Stretch c0 c object.ids [object.places]) :
    Reads (fuel + 1 < 4 * c.left + 1) c (readMembers (fuel + 1) object) fun e c' =>
      Stretch c0 c' e.ids [e.places] := by
  unfold readMembers membersTurn
  have hle := hobj.left_le
  refine (reads_take? _).bind fun b c1 h1 _ _ => ?_
  split
  · refine reads_readName.bind fun member c2 h2 _ ⟨_, _⟩ => .at? ?_
    have hto2 := h1.trans h2
    split
    · refine ((ih.args c2).weaken (by omega)).bind fun args c3 _ _ ⟨_, ha⟩ => .previousSpan ?_
      refine (reads_freshNode _).bind fun n c4 _ _ hn => ?_
      have hnode := (hobj.append (ha.before hto2)).upTo (by omega)
      rw [object.span_places] at hnode
      exact (ih.members c0 c4 (.call n member (object :: args))
        (by rw [Expr.ids, idsOfAll]; exact hnode.1.number hn)).weaken (by omega)
    · refine .previousSpan ((reads_freshNode _).bind fun n c3 _ _ hn => ?_)
      have hnode := (hobj.after hto2).upTo (by omega)
      rw [object.span_places] at hnode
      exact (ih.members c0 c3 (.access n object member)
        (by rw [Expr.ids]; exact hnode.1.number hn)).weaken (by omega)
  · exact .pure (hobj.after h1)

omit ih in
theorem leaf {f : Node → Expr} {s : Span} (h1 : c.Later short c1) (hs : TokenRead c s c1)
    (h : ∀ n, (f n).ids = [n.id] ∧ (f n).places = .node n.span []) :
    Reads short c1 (freshNode s >>= fun n => pure (f n)) (ExprRead c) := by
  obtain ⟨hlt, rfl⟩ := hs
  refine (reads_freshNode _).bind fun n c2 _ _ hn => .pure ⟨by omega, ?_⟩
  rw [(h n).1, (h n).2]
  exact (h1.token hlt).number hn

omit ih in
theorem node_args {f : Node → Expr} {args : List Expr} (h1 : c.Later short c1)
    (hs : TokenRead c s c1) (ha : Stretch c1 c2 (idsOfAll args) (placesOfAll args))
    (h : ∀ n, (f n).ids = idsOfAll args ++ [n.id] ∧ (f n).places = .node n.span (placesOfAll args)) :
    Reads short c2 (previousSpan >>= fun s' => freshNode (s.merge s') >>= fun n => pure (f n))
      (ExprRead c) := by
  obtain ⟨hlt, rfl⟩ := hs
  have hle := ha.left_le
  refine .previousSpan ((reads_freshNode _).bind fun n c3 _ _ hn => .pure ⟨by omega, ?_⟩)
  rw [(h n).1, (h n).2]
  exact (((h1.token hlt).append ha).upTo (by omega)).2.number hn

theorem primary_succ (c : Cursor) :
    Reads (fuel + 1 < 4 * c.left + 1) c (readPrimary (fuel + 1)) (ExprRead c) := by
  unfold readPrimary
  refine reads_advance.bind fun t c1 h1 _ ⟨_, _, htoken, hfits⟩ => ?_
  -- An expression does not begin with the end of the file, so its first token is used up.
  have used {kind : Token.Kind} (hk : t.kind = kind) (hne : kind ≠ .endOfFile) :
      TokenRead c t.span c1 := htoken (hk ▸ hne)
  split
  · next hk => exact leaf h1 (used hk nofun) fun _ => ⟨by rw [Expr.ids], rfl⟩
  · next hk => exact leaf h1 (used hk nofun) fun _ => ⟨by rw [Expr.ids], rfl⟩
  · next hk => exact leaf h1 (used hk nofun) fun _ => ⟨by rw [Expr.ids], rfl⟩
  · next hk => exact leaf h1 (used hk nofun) fun _ => ⟨by rw [Expr.ids], rfl⟩
  · next hk => exact leaf h1 (used hk nofun) fun _ => ⟨by rw [Expr.ids], rfl⟩
  · next hk =>
    have hlt := (used hk nofun).left
    refine ((ih.above c1 0).weaken (by omega)).bind fun inner c2 _ _ ⟨_, he⟩ => ?_
    refine (reads_expectSymbol _).bind fun _ c3 h3 _ ⟨_, _⟩ => .pure ⟨by omega, ?_⟩
    exact (he.before h1).after h3
  · next hk =>
    have hs := used hk nofun
    have hlt := hs.left
    refine reads_readName.bind fun name c2 h2 _ ⟨_, _⟩ => ?_
    refine ((ih.args c2).weaken (by omega)).bind fun args c3 _ _ ⟨_, ha⟩ => ?_
    exact node_args h1 hs (ha.before h2) fun _ => ⟨by rw [Expr.ids], rfl⟩
  · next hk =>
    have hs := used hk nofun
    have hlt := hs.left
    refine .at? ?_
    split
    · refine ((ih.args c1).weaken (by omega)).bind fun args c2 _ _ ⟨_, ha⟩ => ?_
      exact node_args h1 hs ha fun _ => ⟨by rw [Expr.ids], rfl⟩
    · exact leaf h1 hs fun _ => ⟨by rw [Expr.ids], rfl⟩
  · exact .throw ⟨nofun, hfits⟩

theorem args_succ (c : Cursor) :
    Reads (fuel + 1 < 4 * c.left + 1) c (readArgs (fuel + 1)) fun es c' =>
      c'.left < c.left ∧ Stretch c c' (idsOfAll es) (placesOfAll es) := by
  unfold readArgs
  refine (reads_expectSymbol _).bind fun _ c1 h1 _ ⟨_, _⟩ => ?_
  refine ((ih.argList c1).weaken (by omega)).bind fun args c2 _ _ ha => ?_
  refine (reads_expectSymbol _).bind fun _ c3 h3 _ ⟨_, _⟩ => .pure ⟨by omega, ?_⟩
  exact (ha.before h1).after h3

theorem argList_succ (c : Cursor) :
    Reads (fuel + 1 < 4 * c.left + 4) c (readArgList (fuel + 1)) fun es c' =>
      Stretch c c' (idsOfAll es) (placesOfAll es) := by
  unfold readArgList listTurn
  refine .peek ?_
  split
  · exact .pure (by rw [idsOfAll]; exact (Cursor.Moves.refl c).stretch)
  · refine ((ih.above c 0).weaken (by omega)).bind fun arg c1 _ _ ⟨_, he⟩ => ?_
    refine (reads_take? _).bind fun b c2 h2 _ _ => ?_
    split
    · refine ((ih.argList c2).weaken (by omega)).bind fun rest c3 _ _ hr => .pure ?_
      rw [idsOfAll]
      exact he.append (hr.before h2)
    · refine .pure ?_
      rw [idsOfAll, idsOfAll, List.append_nil]
      exact he.after h2

omit ih in
theorem all : ∀ fuel, ExprReaders fuel
  | 0 => zero
  | fuel + 1 =>
    have ih := all fuel
    ⟨above_succ ih, operators_succ ih, operand_succ ih, members_succ ih, primary_succ ih,
      args_succ ih, argList_succ ih⟩

end ExprReaders

theorem reads_readExpr (fuel : Nat) :
    Reads (fuel < 4 * c.left + 3) c (readExpr fuel) (ExprRead c) :=
  (ExprReaders.all fuel).above c 0

/-! ## Statements -/

def StmtRead (c : Cursor) (s : Stmt) (c' : Cursor) : Prop :=
  c'.left < c.left ∧ Stretch c c' s.ids [s.places] ∧ (c.Lexed → s.Grammatical)

theorem reads_readDeclare (fuel : Nat) :
    Reads (fuel < 4 * c.left + 3) c (readDeclare fuel) (StmtRead c) := by
  unfold readDeclare
  refine (reads_expectKeyword _).bind fun start c1 h1 _ ⟨hlt, hs⟩ => ?_
  refine reads_freshId.bind fun id c2 h2 _ hid => ?_
  refine (reads_take? _).bind fun isMutable c3 h3 _ _ => ?_
  refine reads_readName.bind fun name c4 h4 _ ⟨_, _, hname⟩ => ?_
  refine (reads_take? _).bind fun colon c5 h5 _ _ => ?_
  refine Reads.ite_bind (P := fun (ann : Option Ty) _ => ∀ ty ∈ ann, ty.Proper) ?_ ?_
    fun ann c6 h6 _ hann => ?_
  · exact fun _ => reads_readType.map fun ty c' hty => by simpa using hty.2
  · exact fun _ => .pure (by simp)
  refine (reads_take? _).bind fun assign c7 h7 _ _ => ?_
  refine Reads.ite_bind (P := fun (init : Option Expr) c' =>
    Stretch c7 c' (idsOfOption init) (placesOfOption init)) ?_ ?_ fun init c8 _ _ hinit => ?_
  · exact fun _ => ((reads_readExpr fuel).weaken (by omega)).map fun e c' he => he.2
  · exact fun _ => .pure (Cursor.Moves.refl _).stretch
  refine .previousSpan (.pure ⟨by omega, ?_, fun hlex => ⟨hname ?_, hann⟩⟩)
  · have hto7 := h3.trans (h4.trans (h5.trans (h6.trans h7)))
    have hall : Stretch c c8 ([id] ++ idsOfOption init) (_ :: placesOfOption init) :=
      (h1.token hlt).append (hid.append (hinit.before hto7))
    rw [Stmt.ids, Stmt.places, hs]
    exact (hall.upTo (by omega)).2.perm List.perm_append_comm
  · exact ((h1.trans h2).trans h3).lexed hlex

theorem reads_readReturn (fuel : Nat) :
    Reads (fuel < 4 * c.left + 3) c (readReturn fuel) (StmtRead c) := by
  unfold readReturn
  refine (reads_expectKeyword _).bind fun start c1 h1 _ ⟨hlt, hs⟩ => .peek ?_
  refine Reads.ite_bind (P := fun (value : Option Expr) c' =>
    Stretch c1 c' (idsOfOption value) (placesOfOption value)) ?_ ?_ fun value c2 _ _ hv => ?_
  · exact fun _ => .pure (Cursor.Moves.refl _).stretch
  · exact fun _ => ((reads_readExpr fuel).weaken (by omega)).map fun e c' he => he.2
  refine .previousSpan (.pure ⟨by omega, ?_, fun _ => trivial⟩)
  rw [Stmt.ids, Stmt.places, hs]
  exact (((h1.token hlt).append hv).upTo (by omega)).2

theorem reads_readExprStmt (fuel : Nat) :
    Reads (fuel < 4 * c.left + 3) c (readExprStmt fuel) (StmtRead c) := by
  unfold readExprStmt
  refine (reads_readExpr fuel).bind fun target c1 _ _ ⟨_, ht⟩ => .at? ?_
  split
  · refine reads_advance.bind fun _ c2 h2 _ ⟨_, _, _, hfits⟩ => ?_
    have hvalue : Reads (fuel < 4 * c.left + 3) c2 (readExpr fuel) (ExprRead c2) :=
      (reads_readExpr fuel).weaken (by omega)
    cases target with
    | var node name =>
      refine hvalue.bind fun value c3 _ _ ⟨_, hv⟩ => .pure ⟨by omega, ?_, fun _ => trivial⟩
      have hnode := (ht.append (hv.before h2)).pair.2
      rw [value.span_places] at hnode
      rw [Stmt.ids]
      exact ⟨hnode.toMoves, hv.ids.mono (ht.trans h2.toMoves).nextId_le (Nat.le_refl _), hnode.places⟩
    | _ => exact hvalue.throw_after ⟨nofun, hfits⟩
  · refine .pure ⟨by omega, ?_, fun _ => trivial⟩
    rw [Stmt.ids, Stmt.places, ← target.span_places]
    refine ⟨ht.toMoves, ht.ids, fun r hc => ?_⟩
    obtain ⟨hlo, hin, hhi⟩ := ht.places r hc
    exact ⟨hlo, ⟨hin.fits, Nat.le_refl _, hin, Nat.le_refl _⟩, hhi⟩

theorem Cursor.later_skipUntil (c : Cursor) (stop : Token.Kind → Bool) :
    c.Later short (c.skipUntil stop) := by
  have go (previous : Span) (ts : List Token) (hts : ts <:+ c.ahead)
      (ht : previous :: (ts.map Token.span ++ [c.finish]) <:+ c.previous :: c.spans) :
      c.Later short (Cursor.skipUntil.go stop c previous ts) := by
    induction ts generalizing previous with
    | nil => exact .of_suffix hts ht
    | cons t rest ih =>
      unfold Cursor.skipUntil.go
      split
      · exact .of_suffix hts ht
      · exact ih _ ((List.suffix_cons t rest).trans hts) ((List.suffix_cons _ _).trans ht)
  exact go _ _ (List.suffix_refl _) (List.suffix_refl _)

theorem Cursor.skipBalanced_go_cons (stop : Token.Kind → Bool) (c : Cursor) (depth : Nat)
    (previous : Span) (t : Token) (rest : List Token) :
    skipBalanced.go stop c depth previous (t :: rest) =
        { c with previous := previous, ahead := t :: rest } ∨
      ∃ depth', skipBalanced.go stop c depth previous (t :: rest) =
        skipBalanced.go stop c depth' t.span rest := by
  rw [skipBalanced.go.eq_def stop c depth previous (t :: rest)]
  dsimp only
  split
  · exact .inl rfl
  · exact .inr ⟨_, rfl⟩
  · exact .inl rfl
  · exact .inr ⟨_, rfl⟩
  · split
    · exact .inl rfl
    · exact .inr ⟨_, rfl⟩
  · exact .inr ⟨_, rfl⟩

theorem Cursor.later_skipBalanced (c : Cursor) (stop : Token.Kind → Bool) :
    c.Later short (c.skipBalanced stop) := by
  have go (depth : Nat) (previous : Span) (ts : List Token) (hts : ts <:+ c.ahead)
      (ht : previous :: (ts.map Token.span ++ [c.finish]) <:+ c.previous :: c.spans) :
      c.Later short (Cursor.skipBalanced.go stop c depth previous ts) := by
    induction ts generalizing depth previous with
    | nil => exact .of_suffix hts ht
    | cons t rest ih =>
      rcases skipBalanced_go_cons stop c depth previous t rest with h | ⟨depth', h⟩
      · exact h ▸ .of_suffix hts ht
      · exact h ▸ ih _ _ ((List.suffix_cons t rest).trans hts) ((List.suffix_cons _ _).trans ht)
  exact go _ _ _ (List.suffix_refl _) (List.suffix_refl _)

/-- What the readers of statements guarantee with a step budget, and how much of it is enough. -/
structure StmtReaders (fuel : Nat) : Prop where
  stmt : ∀ c, Reads (fuel < 4 * c.left + 4) c (readStmt fuel) (StmtRead c)
  block : ∀ c, Reads (fuel < 4 * c.left + 2) c (readBlock fuel) fun b c' =>
    c'.left < c.left ∧ Stretch c c' b.ids [b.places] ∧ (c.Lexed → b.Grammatical)
  stmts : ∀ c, Reads (fuel < 4 * c.left + 5) c (readStmts fuel) fun ss c' =>
    Stretch c c' (idsOfStmts ss) (placesOfStmts ss) ∧ (c.Lexed → GrammaticalStmts ss)

namespace StmtReaders

theorem zero : StmtReaders 0 where
  stmt _ := reads_exhausted (Nat.succ_pos _)
  block _ := reads_exhausted (Nat.succ_pos _)
  stmts _ := reads_exhausted (Nat.succ_pos _)

variable (ih : StmtReaders fuel)
include ih

theorem stmt_succ (c : Cursor) :
    Reads (fuel + 1 < 4 * c.left + 4) c (readStmt (fuel + 1)) (StmtRead c) := by
  unfold readStmt
  refine .peek ?_
  split
  · exact (reads_readDeclare fuel).weaken (by omega)
  · refine (reads_expectKeyword _).bind fun start c1 h1 _ ⟨hlt, hs⟩ => ?_
    refine ((reads_readExpr fuel).weaken (by omega)).bind fun cond c2 h2 _ ⟨_, hcond⟩ => ?_
    refine ((ih.block c2).weaken (by omega)).bind fun thenBlock c3 _ _ ⟨_, hthen, hgram⟩ => ?_
    refine (reads_take? _).bind fun hasElse c4 h4 _ _ => ?_
    refine Reads.ite_bind (P := fun (e : Option Block) c' => (c4.Lexed → ∀ b ∈ e, b.Grammatical) ∧
      Stretch c4 c' (e.elim [] Block.ids) (e.elim [] ([·.places]))) ?_ ?_
      fun elseBlock c5 _ _ ⟨hgram', helse⟩ => ?_
    · exact fun _ => ((ih.block c4).weaken (by omega)).map fun b c' hb =>
        ⟨fun hlex => by simpa using hb.2.2 hlex, hb.2.1⟩
    · exact fun _ => .pure ⟨fun _ => by simp, (Cursor.Moves.refl _).stretch⟩
    refine .previousSpan (.pure ⟨by omega, ?_⟩)
    have hfront := (h1.token hlt).append ((hcond.append hthen).after h4)
    have hall := ((hfront.append helse).upTo (by omega)).2
    have hthen (hlex : c.Lexed) := hgram ((h1.trans h2).lexed hlex)
    cases elseBlock with
    | none =>
      refine ⟨?_, hthen⟩
      rw [Stmt.ids, Stmt.places, hs]
      simpa [SpanTree.span] using hall
    | some b =>
      refine ⟨?_, fun hlex => ⟨hthen hlex, hgram' (hfront.lexed hlex) b rfl⟩⟩
      rw [Stmt.ids, Stmt.places, hs]
      simpa [SpanTree.span] using hall
  · exact (reads_readReturn fuel).weaken (by omega)
  · exact (reads_readExprStmt fuel).weaken (by omega)

theorem block_succ (c : Cursor) :
    Reads (fuel + 1 < 4 * c.left + 2) c (readBlock (fuel + 1)) fun b c' =>
      c'.left < c.left ∧ Stretch c c' b.ids [b.places] ∧ (c.Lexed → b.Grammatical) := by
  unfold readBlock
  refine (reads_expectSymbol _).bind fun start c1 h1 _ ⟨hlt, hs⟩ => ?_
  refine reads_freshId.bind fun id c2 h2 _ hid => ?_
  refine ((ih.stmts c2).weaken (by omega)).bind fun stmts c3 _ _ ⟨hstmts, hgram⟩ => ?_
  refine (reads_expectSymbol _).bind fun _ c4 h4 _ ⟨_, _⟩ => .previousSpan (.pure ?_)
  refine ⟨by omega, ?_, fun hlex => hgram ((h1.trans h2).lexed hlex)⟩
  rw [Block.ids, Block.places, hs]
  exact (((h1.token hlt).append ((hid.append hstmts).after h4)).upTo (by omega)).2

theorem stmts_succ (c : Cursor) :
    Reads (fuel + 1 < 4 * c.left + 5) c (readStmts (fuel + 1)) fun ss c' =>
      Stretch c c' (idsOfStmts ss) (placesOfStmts ss) ∧ (c.Lexed → GrammaticalStmts ss) := by
  have resume {c1 : Cursor} (h : c.Later (fuel + 1 < 4 * c.left + 5) c1) (hlt : c1.left < c.left) :
      Reads (fuel + 1 < 4 * c.left + 5) c1 (readStmts fuel) fun ss c' =>
        Stretch c c' (idsOfStmts ss) (placesOfStmts ss) ∧ (c.Lexed → GrammaticalStmts ss) :=
    ((ih.stmts c1).weaken (by omega)).mono fun ss c' _ _ hss =>
      ⟨hss.1.before h, fun hlex => hss.2 (h.lexed hlex)⟩
  unfold readStmts stmtsTurn
  refine .peek ?_
  split
  · exact .pure ⟨by rw [idsOfStmts]; exact (Cursor.Moves.refl c).stretch, fun _ => trivial⟩
  next hkind =>
  have hpos : 0 < c.left := Cursor.left_pos fun h => hkind (by simp [h])
  refine (reads_take? _).bind fun semi c1 h1 _ hsemi => ?_
  split
  · next hb => exact resume h1 (hsemi hb nofun)
  refine .get (Reads.recover ((ih.stmt c1).weaken (by omega)) (fun _ => rfl)
    (fun stmt c2 h2 _ ⟨_, hstmt, hgram⟩ => ?_) fun e c2 h2 _ => .get ?_)
  · refine ((ih.stmts c2).weaken (by omega)).bind fun rest c3 _ _ hrest => .pure ?_
    refine ⟨?_, fun hlex => ⟨hgram (h1.lexed hlex), hrest.2 ((h1.trans h2).lexed hlex)⟩⟩
    rw [idsOfStmts]
    exact (hstmt.before h1).append hrest.1
  · have hto2 := h1.trans h2
    have skip {c3 : Cursor} (h : c.Later (fuel + 1 < 4 * c.left + 5) c3) (hlt : c3.left < c.left) :
        Reads (fuel + 1 < 4 * c.left + 5) c3
          (modify (Cursor.skipBalanced resumesStmt) >>= fun _ => readStmts fuel) fun ss c' =>
            Stretch c c' (idsOfStmts ss) (placesOfStmts ss) ∧ (c.Lexed → GrammaticalStmts ss) :=
      have hskip := c3.later_skipBalanced resumesStmt
      Reads.bind (P := fun _ _ => True) ⟨hskip, trivial⟩ fun _ c4 h4 _ _ =>
        resume (h.trans h4) (by omega)
    -- A statement that failed at its first token is stepped over.
    split
    · exact reads_advance.bind fun _ c3 h3 _ ht => skip (hto2.trans h3) (by omega)
    · next hmoved =>
      have hmoved : c2.left ≠ c1.left := fun h => hmoved (beq_iff_eq.mpr h)
      exact skip hto2 (by omega)

omit ih in
theorem all : ∀ fuel, StmtReaders fuel
  | 0 => zero
  | fuel + 1 =>
    have ih := all fuel
    ⟨stmt_succ ih, block_succ ih, stmts_succ ih⟩

end StmtReaders

/-! ## Items -/

def ItemRead (c : Cursor) (i : Item) (c' : Cursor) : Prop :=
  c'.left < c.left ∧ Stretch c c' i.ids [i.places] ∧ (c.Lexed → i.Grammatical)

theorem reads_readDotted (fuel : Nat) :
    Reads (fuel < c.left + 1) c (readDotted fuel) fun _ _ => True := by
  induction fuel generalizing c with
  | zero => exact reads_exhausted (Nat.succ_pos _)
  | succ fuel ih =>
    unfold readDotted
    refine (reads_take? _).bind fun dot c1 _ _ _ => ?_
    split
    · refine reads_readName.bind fun part c2 _ _ ⟨_, _, _⟩ => ?_
      exact (ih.weaken (by omega)).bind fun rest c3 _ _ _ => .pure trivial
    · exact .pure trivial

theorem reads_readImport (fuel : Nat) :
    Reads (fuel < 4 * c.left) c (readImport fuel) fun d c' => ItemRead c (.importing d) c' := by
  unfold readImport
  refine (reads_expectKeyword _).bind fun start c1 h1 _ ⟨hlt, hs⟩ => ?_
  refine reads_readName.bind fun first c2 h2 _ ⟨_, _, _⟩ => ?_
  refine ((reads_readDotted fuel).weaken (by omega)).bind fun rest c3 h3 _ _ => .previousSpan ?_
  refine .pure ⟨by omega, hs ▸ ?_, fun _ => trivial⟩
  exact (((h1.token hlt).after (h2.trans h3)).upTo (by omega)).2

def TypedRead (c : Cursor) (ts : List TypedName) (c' : Cursor) : Prop :=
  Stretch c c' [] (placesOfNames ts) ∧ (c.Lexed → ∀ t ∈ ts, t.Grammatical)

theorem reads_readTypedName : Reads short c readTypedName fun t c' =>
    c'.left < c.left ∧ Stretch c c' [] [.node t.span []] ∧ (c.Lexed → t.Grammatical) := by
  unfold readTypedName
  refine .peekSpan (reads_readName.bind fun name c1 h1 _ ⟨hlt, hs, hn⟩ => ?_)
  refine (reads_expectSymbol _).bind fun _ c2 h2 _ _ => ?_
  refine reads_readType.bind fun ty c3 h3 _ hty => .previousSpan (.pure ⟨by omega, ?_, ?_⟩)
  · exact hs ▸ (((h1.token hlt).after (h2.trans h3)).upTo (by omega)).2
  · exact fun hlex => ⟨hn hlex, hty.2⟩

theorem TypedRead.nil (c : Cursor) : TypedRead c [] c := ⟨(Cursor.Moves.refl c).stretch, by simp⟩

theorem TypedRead.cons {c1 c2 : Cursor} {t : TypedName}
    (ht : Stretch c c1 [] [.node t.span []] ∧ (c.Lexed → t.Grammatical)) (h : c1.Later short c2)
    (hts : TypedRead c2 ts c3) : TypedRead c (t :: ts) c3 :=
  ⟨ht.1.append (hts.1.before h), fun hlex =>
    List.forall_mem_cons.mpr ⟨ht.2 hlex, hts.2 (h.lexed (ht.1.lexed hlex))⟩⟩

theorem reads_readFields (fuel : Nat) :
    Reads (fuel < c.left + 1) c (readFields fuel) (TypedRead c) := by
  induction fuel generalizing c with
  | zero => exact reads_exhausted (Nat.succ_pos _)
  | succ fuel ih =>
    unfold readFields fieldsTurn
    refine .peek ?_
    split
    · exact .pure (.nil c)
    · refine reads_readTypedName.bind fun field c1 _ _ ⟨_, hf⟩ => ?_
      refine (reads_take? _).bind fun _ c2 h2 _ _ => ?_
      exact (ih.weaken (by omega)).bind fun rest c3 _ _ hrest => .pure (.cons hf h2 hrest)

theorem reads_readParamList (fuel : Nat) :
    Reads (fuel < c.left + 1) c (readParamList fuel) (TypedRead c) := by
  induction fuel generalizing c with
  | zero => exact reads_exhausted (Nat.succ_pos _)
  | succ fuel ih =>
    unfold readParamList listTurn
    refine .peek ?_
    split
    · exact .pure (.nil c)
    · refine reads_readTypedName.bind fun param c1 _ _ ⟨_, hp⟩ => ?_
      refine (reads_take? _).bind fun comma c2 h2 _ _ => ?_
      split
      · exact (ih.weaken (by omega)).bind fun rest c3 _ _ hrest => .pure (.cons hp h2 hrest)
      · exact .pure (.cons hp h2 (.nil c2))

theorem reads_readStruct (fuel : Nat) :
    Reads (fuel < 4 * c.left) c (readStruct fuel) fun d c' => ItemRead c (.struct d) c' := by
  unfold readStruct
  refine (reads_expectKeyword _).bind fun start c1 h1 _ ⟨hlt, hs⟩ => ?_
  refine reads_readName.bind fun name c2 h2 _ ⟨_, _, _⟩ => ?_
  refine (reads_expectSymbol _).bind fun _ c3 h3 _ _ => ?_
  refine ((reads_readFields fuel).weaken (by omega)).bind fun fields c4 _ _ hf => ?_
  refine (reads_expectSymbol _).bind fun _ c5 h5 _ _ => .previousSpan (.pure ?_)
  have hto3 := h2.trans h3
  refine ⟨by omega, hs ▸ ?_, fun hlex => hf.2 ((h1.trans hto3).lexed hlex)⟩
  exact (((h1.token hlt).append ((hf.1.before hto3).after h5)).upTo (by omega)).2

theorem reads_readHeader (fuel : Nat) :
    Reads (fuel < c.left) c (readHeader fuel) fun h c' => TypedRead c h.1 c' ∧ h.2.Proper := by
  unfold readHeader
  refine (reads_expectSymbol _).bind fun _ c1 h1 _ ⟨_, _⟩ => ?_
  refine ((reads_readParamList fuel).weaken (by omega)).bind fun params c2 _ _ hp => ?_
  refine (reads_expectSymbol _).bind fun _ c3 h3 _ _ => ?_
  refine (reads_expectSymbol _).bind fun _ c4 h4 _ _ => ?_
  refine reads_readType.bind fun ret c5 h5 _ hret => .pure ⟨⟨?_, fun hlex => ?_⟩, hret.2⟩
  · exact (hp.1.before h1).after (h3.trans (h4.trans h5))
  · exact hp.2 (h1.lexed hlex)

theorem reads_readForeign (fuel : Nat) :
    Reads (fuel < 4 * c.left) c (readForeign fuel) fun d c' => ItemRead c (.foreign d) c' := by
  unfold readForeign
  refine (reads_expectKeyword _).bind fun start c1 h1 _ ⟨hlt, hs⟩ => ?_
  refine (reads_expectKeyword _).bind fun _ c2 h2 _ _ => ?_
  refine reads_readName.bind fun name c3 h3 _ _ => ?_
  refine ((reads_readHeader fuel).weaken (by omega)).bind fun h c4 _ _ hh => ?_
  obtain ⟨params, ret⟩ := h
  have hto3 := h2.trans h3
  refine .previousSpan (.pure ⟨by omega, hs ▸ ?_, fun hlex => ?_⟩)
  · exact (((h1.token hlt).append (hh.1.1.before hto3)).upTo (by omega)).2
  · exact ⟨hh.1.2 ((h1.trans hto3).lexed hlex), hh.2⟩

theorem reads_readFunction (fuel : Nat) :
    Reads (fuel < 4 * c.left) c (readFunction fuel) fun f c' => ItemRead c (.fn f) c' := by
  unfold readFunction
  refine (reads_expectKeyword _).bind fun start c1 h1 _ ⟨hlt, hs⟩ => ?_
  refine reads_readName.bind fun first c2 h2 _ ⟨_, _, _⟩ => ?_
  refine (reads_take? _).bind fun dot c3 h3 _ _ => ?_
  -- The receiver, if there is one, is the struct whose name stands before the dot.
  have rest {c4 : Cursor} (receiver : Option Ty) (name : String)
      (h4 : c1.Later (fuel < 4 * c.left) c4) (hlt4 : c4.left < c.left)
      (hrec : ∀ ty ∈ receiver, ∃ s, ty = Ty.struct s) :
      Reads (fuel < 4 * c.left) c4 (readHeader fuel >>= fun h => readBlock fuel >>= fun body =>
        previousSpan >>= fun last => pure (⟨⟨name, "", receiver, h.1, h.2, start.merge last⟩,
          body⟩ : FnDef)) fun f c' => ItemRead c (.fn f) c' := by
    refine ((reads_readHeader fuel).weaken (by omega)).bind fun h c5 h5 _ ⟨hp, hret⟩ => ?_
    refine (((StmtReaders.all fuel).block c5).weaken (by omega)).bind fun body c6 _ _ hb => ?_
    have hto4 := h1.trans h4
    refine .previousSpan (.pure ⟨by omega, hs ▸ ?_, fun hlex => ?_⟩)
    · exact (((h1.token hlt).append ((hp.1.before h4).append hb.2.1)).upTo (by omega)).2
    · exact ⟨hrec, hp.2 (hto4.lexed hlex), hret, hb.2.2 ((hto4.trans h5).lexed hlex)⟩
  have hto3 := h2.trans h3
  split
  · refine reads_readName.bind fun name c4 h4 _ ⟨_, _, _⟩ => ?_
    exact rest (some (.struct first)) name (hto3.trans h4) (by omega)
      (by rintro ty h; cases h; exact ⟨first, rfl⟩)
  · exact rest none first hto3 (by omega) (by simp)

theorem reads_readItem (fuel : Nat) :
    Reads (fuel < 4 * c.left) c (readItem fuel) (ItemRead c) := by
  unfold readItem
  refine .peek ?_
  split
  · exact (reads_readImport fuel).map fun _ _ h => h
  · exact (reads_readStruct fuel).map fun _ _ h => h
  · exact (reads_readFunction fuel).map fun _ _ h => h
  · exact (reads_readForeign fuel).map fun _ _ h => h
  · exact reads_unexpected _

def ItemsRead (c : Cursor) (is : List Item) (c' : Cursor) : Prop :=
  c'.current.kind = .endOfFile ∧ Stretch c c' (is.flatMap Item.ids) (is.map Item.places) ∧
    (c.Lexed → ∀ i ∈ is, i.Grammatical)

theorem reads_readItems (fuel : Nat) :
    Reads (fuel < 4 * c.left + 1) c (readItems fuel) (ItemsRead c) := by
  induction fuel generalizing c with
  | zero => exact reads_exhausted (Nat.succ_pos _)
  | succ fuel ih =>
    have resume {c1 : Cursor} (h : c.Later (fuel + 1 < 4 * c.left + 1) c1) (hlt : c1.left < c.left) :
        Reads (fuel + 1 < 4 * c.left + 1) c1 (readItems fuel) (ItemsRead c) :=
      (ih.weaken (by omega)).mono fun is c' _ _ ⟨hend, his, hgram⟩ =>
        ⟨hend, his.before h, fun hlex => hgram (h.lexed hlex)⟩
    unfold readItems itemsTurn
    refine .peek ?_
    split
    · next hend => exact .pure ⟨eq_of_beq hend, (Cursor.Moves.refl c).stretch, by simp⟩
    next hkind =>
    have hpos : 0 < c.left := Cursor.left_pos fun h => hkind (by simp [h])
    refine (reads_take? _).bind fun semi c1 h1 _ hsemi => ?_
    split
    · next hb => exact resume h1 (hsemi hb nofun)
    refine .get (Reads.recover ((reads_readItem fuel).weaken (by omega)) (fun _ => rfl)
      (fun item c2 h2 _ ⟨hlt, hitem, hgram⟩ => ?_) fun e c2 h2 _ => .get ?_)
    · refine (ih.weaken (by omega)).bind fun rest c3 _ _ ⟨hend, hrest, hgram'⟩ => .pure ⟨hend, ?_, ?_⟩
      · exact (hitem.before h1).append hrest
      · exact fun hlex => List.forall_mem_cons.mpr
          ⟨hgram (h1.lexed hlex), hgram' ((h1.trans h2).lexed hlex)⟩
    · have hto2 := h1.trans h2
      have hskip : c2.advance.Later (fuel + 1 < 4 * c.left + 1) _ :=
        c2.advance.later_skipUntil beginsItem
      have hskipped := hskip.left_le
      rw [c2.left_advance] at hskipped
      -- Reading goes on where it stopped only if it moved.
      split
      · exact Reads.bind (P := fun _ c' => c' = c2.advance.skipUntil beginsItem)
          ⟨c2.later_advance.trans hskip, rfl⟩
          fun _ c3 h3 _ hc3 => resume (hto2.trans h3) (by subst hc3; omega)
      · next hmoved =>
        have hmoved : c2.left ≠ c1.left := fun h => hmoved (by simp [h])
        exact resume hto2 (by omega)

end StructLang.Tree

/-! ## Whole texts -/

namespace StructLang.Token

theorem IsLexeme.isName {kind : Token.Kind} (h : IsLexeme chars kind rest) (hs : kind = .name s) :
    IsName s := by
  cases h with
  | @word c cs _ hc hcs =>
    unfold wordKind at hs
    dsimp only at hs
    split at hs
    · cases hs
    · cases hs
      exact ⟨c, cs, String.toList_ofList, hc, hcs⟩
  | double _ _ hkind | single _ _ hkind =>
    obtain ⟨value, rfl⟩ := eq_float_of_floatKind hkind
    cases hs
  | integer | long | text | symbol => cases hs

theorem isName_of_tokenize (h : tokenize file source = .ok tokens)
    (ht : t ∈ tokens) (hs : t.kind = .name s) : IsName s := by
  obtain ⟨pieces, hcuts, rfl⟩ := tokenize_eq_ok_iff.mp h
  rcases List.mem_append.mp ht with ht | ht
  · obtain ⟨chars, rest, -, hlexeme, -⟩ := exists_lexeme_of_mem_placed hcuts (.whole source) ht
    exact hlexeme.isName hs
  · cases List.mem_singleton.mp ht
    cases hs

end StructLang.Token

namespace StructLang

open StructLang.Tree

theorem Tree.Cursor.mem_of_mem_ofTokens (h : t ∈ (Cursor.ofTokens tokens firstId).ahead) :
    t ∈ tokens := by
  unfold Cursor.ofTokens at h
  dsimp only at h
  split at h
  · exact List.dropLast_subset _ h
  · exact h

/-- Reading tokens gives a program or mistakes that stand among them. -/
theorem Program.ofTokens_spec (tokens : List Token) (firstId : Nat) :
    (∀ p, (Program.ofTokens tokens firstId).result = .ok p → ∃ c,
      ItemsRead (.ofTokens tokens firstId) p.items c ∧
        c.nextId = (Program.ofTokens tokens firstId).nextId) ∧
    ∀ es, (Program.ofTokens tokens firstId).result = .error es → ∀ e ∈ es,
      (Cursor.ofTokens tokens firstId).Blames True e := by
  have hread := (reads_readItems (c := .ofTokens tokens firstId) (budget tokens)).weaken
    fun _ => trivial
  have hmistakes {c : Cursor} (h : (Cursor.ofTokens tokens firstId).Later True c) :
      ∀ e ∈ c.mistakes, (Cursor.ofTokens tokens firstId).Blames True e :=
    fun e he => (h.mistakes e he).resolve_left List.not_mem_nil
  unfold Reads at hread
  unfold Program.ofTokens
  cases hr : readItems (budget tokens) (.ofTokens tokens firstId) with
  | ok items c =>
    rw [hr] at hread
    dsimp only
    split
    · refine ⟨fun p hp => ?_, nofun⟩
      cases hp
      exact ⟨c, hread.2, rfl⟩
    · refine ⟨nofun, fun es hes => ?_⟩
      cases hes
      exact hmistakes hread.1
  | error e c =>
    rw [hr] at hread
    refine ⟨nofun, fun es hes => ?_⟩
    cases hes
    exact List.forall_mem_append.mpr ⟨hmistakes hread.1, List.forall_mem_singleton.mpr hread.2⟩

theorem Program.exists_of_parse (h : Program.parse source file firstId = .ok (p, next)) :
    ∃ tokens c, Token.tokenize file source = .ok tokens ∧
      ItemsRead (.ofTokens tokens firstId) p.items c ∧ c.nextId = next := by
  unfold Program.parse at h
  split at h
  · cases h
  · next tokens htok =>
    cases hres : (Program.ofTokens tokens firstId).result with
    | error es =>
      simp only [hres] at h
      cases h
    | ok q =>
      simp only [hres] at h
      cases h
      obtain ⟨c, hitems, hnext⟩ := (Program.ofTokens_spec tokens firstId).1 p hres
      exact ⟨tokens, c, htok, hitems, hnext⟩

theorem Program.mistake_of_parse (h : Program.parse source file firstId = .error es) (he : e ∈ es) :
    Token.tokenize file source = .error e ∨ ∃ tokens, Token.tokenize file source = .ok tokens ∧
      (Cursor.ofTokens tokens firstId).Blames True e := by
  unfold Program.parse at h
  split at h
  · next htok =>
    cases h
    exact .inl (List.mem_singleton.mp he ▸ htok)
  · next tokens htok =>
    cases hres : (Program.ofTokens tokens firstId).result with
    | error es' =>
      simp only [hres] at h
      cases h
      exact .inr ⟨tokens, htok, (Program.ofTokens_spec tokens firstId).2 es hres e he⟩
    | ok q =>
      simp only [hres] at h
      cases h

/-- Reading a text gives a program whose nodes are numbered from the first number on, each once. -/
theorem Program.parse_spec (h : Program.parse source file firstId = .ok (p, next)) :
    firstId ≤ next ∧ Numbered firstId next p.ids ∧ ∀ i ∈ p.items, i.Grammatical := by
  obtain ⟨tokens, c, htok, ⟨-, hitems, hgram⟩, rfl⟩ := Program.exists_of_parse h
  exact ⟨hitems.nextId_le, hitems.ids, hgram fun t ht s hs =>
    Token.isName_of_tokenize htok (Cursor.mem_of_mem_ofTokens ht) hs⟩

theorem Program.grammatical_of_parse (h : Program.parse source file firstId = .ok (p, next)) :
    p.Grammatical :=
  ⟨(Program.parse_spec h).2.2, (Program.parse_spec h).2.1.1⟩

end StructLang
