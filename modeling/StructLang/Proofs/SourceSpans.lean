import Mathlib.Order.MinMax
import StructLang.Proofs.DuplicateReports
import StructLang.Proofs.Reading

/-!
# Places in a text

Every span that a reader or the checker gives stands in its text: its ends are in order, inside the text
and between characters, so the text can be cut there. Parts of a syntax tree stand inside it, one behind
the other.
-/

namespace StructLang

open Text (Left)

/-- A place in the text of a file. -/
structure Span.InText (text : String) (file : Nat) (s : Span) : Prop where
  sameFile : s.file = file
  le : s.start ≤ s.stop
  inside : s.stop ≤ text.utf8ByteSize
  start_valid : String.Pos.Raw.IsValid text ⟨s.start⟩
  stop_valid : String.Pos.Raw.IsValid text ⟨s.stop⟩

/-- The places in the text of a file. -/
def Ruler.ofText (text : String) (file : Nat) : Ruler where
  Fits := Span.InText text file
  le h := h.le
  merge h h' :=
    { sameFile := h.sameFile
      le := Nat.le_trans (Nat.min_le_left ..) (Nat.le_trans h.le (Nat.le_max_left ..))
      inside := Nat.max_le.mpr ⟨h.inside, h'.inside⟩
      start_valid := min_rec' (String.Pos.Raw.IsValid text ⟨·⟩) h.start_valid h'.start_valid
      stop_valid := max_rec' (String.Pos.Raw.IsValid text ⟨·⟩) h.stop_valid h'.stop_valid }

theorem Text.Left.isValid (h : Left text pos cs) : String.Pos.Raw.IsValid text ⟨pos⟩ := by
  obtain ⟨before, htext, rfl⟩ := h
  refine String.Pos.Raw.isValid_iff_exists_append.mpr ⟨.ofList before, .ofList cs, ?_, ?_⟩
  · rw [← String.ofList_append, ← htext, String.ofList_toList]
  · rw [Token.byteLength_eq]
    rfl

theorem Text.Left.inText {s : Span} (h : Left text s.start (chars ++ rest))
    (hstop : s.stop = s.start + Token.byteLength chars) : s.InText text s.file :=
  have hskip : Left text s.stop rest := hstop ▸ h.skip
  ⟨rfl, hstop ▸ Nat.le_add_right .., hskip.size ▸ Nat.le_add_right .., h.isValid, hskip.isValid⟩

theorem Text.byteLength_cutAtByte (h : String.Pos.Raw.IsValid text ⟨pos⟩) :
    Token.byteLength (cutAtByte pos text.toList).1 = pos := by
  obtain ⟨before, after, rfl, hpos⟩ := String.Pos.Raw.isValid_iff_exists_append.mp h
  obtain rfl : pos = before.utf8ByteSize := congrArg String.Pos.Raw.byteIdx hpos
  rw [String.toList_append, cutAtByte_append (Nat.le_of_eq (Token.byteLength_toList before)),
    Token.byteLength_toList, Nat.sub_self, cutAtByte_zero, List.append_nil, Token.byteLength_toList]

/-! ## Tokens -/

namespace Token

theorem splitGap_append_rest (inComment : Bool) (cs : List Char) :
    (splitGap inComment cs).1 ++ (splitGap inComment cs).2 = cs := by
  fun_induction splitGap inComment cs <;> simp_all

theorem readQuoted_append_rest (cs : List Char) : (readQuoted cs).1 ++ (readQuoted cs).2.2 = cs := by
  fun_induction readQuoted cs <;> simp_all

theorem readNumber_append_rest (cs : List Char) :
    (readNumber cs).chars ++ (readNumber cs).rest = cs := by
  have hend (whole fraction rest : List Char) : (numberEnd whole fraction rest).chars ++
      (numberEnd whole fraction rest).rest = whole ++ (pointed fraction ++ rest) := by
    unfold numberEnd
    repeat' split
    all_goals simp
  rw [readNumber_eq, hend, (readFraction_spec _).1, List.takeWhile_append_dropWhile]

theorem readLexeme_append_rest (c : Char) (cs : List Char) :
    (readLexeme c cs).chars ++ (readLexeme c cs).rest = c :: cs := by
  unfold readLexeme
  split
  · exact List.takeWhile_append_dropWhile
  · split
    · exact readNumber_append_rest _
    · split
      · exact congrArg (c :: ·) (readQuoted_append_rest cs)
      · split
        · exact List.take_append_drop ..
        · rfl

theorem inText_of_mem_scanFrom (hleft : Left text pos cs) (h : .error e ∈ scanFrom file fuel pos cs) :
    e.span.InText text file := by
  induction fuel generalizing pos cs with
  | zero => cases h
  | succ fuel ih =>
    rw [← splitGap_append_rest false cs] at hleft
    unfold scanFrom at h
    dsimp only at h
    split at h
    · simp at h
    · next c rest hbody =>
      rw [hbody, ← readLexeme_append_rest c rest] at hleft
      rcases List.mem_cons.mp h with h | h
      · split at h
        · cases h
        · cases h
          exact hleft.skip.inText (s := ⟨_, _, file⟩) rfl
      · exact ih hleft.skip.skip h

theorem mem_of_firstMistake (h : firstMistake xs = .error e) : .error e ∈ xs := by
  fun_induction firstMistake xs with
  | case1 => cases h
  | case2 a rest ih =>
    refine List.mem_cons_of_mem _ (ih ?_)
    cases hrest : firstMistake rest with
    | error e' => rw [hrest] at h; exact h
    | ok ys => rw [hrest] at h; cases h
  | case3 e' rest => cases h; exact List.mem_cons_self

theorem inText_of_tokenize (h : tokenize file text = .error e) : e.span.InText text file :=
  inText_of_mem_scanFrom (.whole text) (mem_of_firstMistake h)

end Token

/-- The tokens of a text stand in it one behind the other. -/
theorem Tree.Cursor.placed_ofTokens {firstId : Nat} (h : Token.tokenize file text = .ok tokens) :
    (Cursor.ofTokens tokens firstId).Placed (.ofText text file) := by
  obtain ⟨pieces, hcuts, rfl⟩ := Token.tokenize_eq_ok_iff.mp h
  have hword : ∀ t ∈ Token.placed file 0 pieces, t.span.InText text file := fun t ht => by
    obtain ⟨chars, rest, hleft, -, hstop, rfl⟩ :=
      Token.exists_lexeme_of_mem_placed hcuts (.whole text) ht
    exact hleft.inText hstop
  have hleft : Left text text.utf8ByteSize ([] ++ []) :=
    ⟨text.toList, (List.append_nil _).symm, Token.byteLength_toList text⟩
  have hend := hleft.inText (s := ⟨_, _, file⟩) rfl
  generalize hc : Cursor.ofTokens _ firstId = c
  have hspans : c.spans = (Token.placed file 0 pieces).map Token.span ++
      [⟨text.utf8ByteSize, text.utf8ByteSize, file⟩] := by
    simp [← hc, Cursor.spans, Cursor.ofTokens, Token.withEnd]
  have hprevious : c.previous = c.current.span := by
    rw [← hc]
    unfold Cursor.ofTokens Cursor.current
    dsimp only
    split <;> rfl
  have hfits : ∀ s ∈ c.spans, s.InText text file := by
    rw [hspans]
    exact List.forall_mem_append.mpr ⟨List.forall_mem_map.mpr hword, List.forall_mem_singleton.mpr hend⟩
  obtain ⟨rest, hrest⟩ := c.spans_eq
  refine ⟨List.forall_mem_cons.mpr ⟨hfits _ (hprevious ▸ hrest ▸ .head _), hfits⟩, ?_⟩
  rw [hspans, List.pairwise_append, List.pairwise_map]
  refine ⟨(Token.pairwise_placed 0 pieces).2, List.pairwise_singleton .., fun s hs s' hs' => ?_⟩
  obtain ⟨t, ht, rfl⟩ := List.mem_map.mp hs
  rw [List.mem_singleton.mp hs']
  exact (hword t ht).inside

/-! ## Programs -/

namespace SpanTree

mutual

theorem Nested.fits_all {t : SpanTree} (h : t.Nested r) : ∀ s ∈ t.spans, r.Fits s := by
  cases t with
  | node s parts => exact List.forall_mem_cons.mpr ⟨h.1, h.2.fits_all⟩

theorem InOrder.fits_all (h : InOrder r lo hi ts) : ∀ s ∈ spansOf ts, r.Fits s := by
  cases ts with
  | nil => exact nofun
  | cons t ts => exact List.forall_mem_append.mpr ⟨h.2.1.fits_all, h.2.2.fits_all⟩

end

end SpanTree

namespace Program

def spans (p : Program) : List Span := SpanTree.spansOf (p.items.map Item.places)

theorem mem_spans {p : Program} {item : α → Item}
    (hpart : ∀ i a, part i = some a → i = item a) (ha : a ∈ p.items.filterMap part) :
    (item a).places.spans ⊆ p.spans := by
  obtain ⟨i, hi, heq⟩ := List.mem_filterMap.mp ha
  obtain ⟨before, after, hitems⟩ := List.append_of_mem hi
  rw [spans, hitems, List.map_append, List.map_cons, SpanTree.spansOf_append, hpart i a heq]
  exact List.subset_append_of_subset_right _ (List.subset_append_left ..)

theorem mem_spans_of_report {p : Program} (hd : d ∈ p.analyze.diagnostics)
    (hs : s ∈ d.span) : s ∈ p.spans := by
  simp only [diagnostics_analyze, found, Analysis.diagnostics_append, Analysis.reports, List.mem_append] at hd
  have hfn {f : FnDef} (hf : f ∈ p.functions) : (Item.fn f).places.spans ⊆ p.spans :=
    mem_spans (fun i _ h => by cases i <;> cases h; rfl) hf
  rcases hd with ((hd | hd) | hd) | hd
  · obtain ⟨t, ht, hs⟩ := (Typing.mem_structsReports hd).2 s hs
    exact mem_spans (fun i _ h => by cases i <;> cases h; rfl) ht hs
  · obtain ⟨e, he, hs⟩ := (ordinary_of_mem_foreigns hd).2 s hs
    exact mem_spans (fun i _ h => by cases i <;> cases h; rfl) he hs
  · obtain ⟨f, hf, hs⟩ := (Typing.mem_checkFunctions hd).2 s hs
    exact hfn hf hs
  · obtain ⟨f, hf, rfl⟩ := List.mem_map.mp
      ((Typing.ordinaryReports_entryPointReports p.functions d hd).2 s hs)
    exact hfn hf (.head _)

/-- A text gives mistakes in the text, or a program whose parts stand in it, nested and in order. -/
theorem spans_nested (text : String) (file firstId : Nat) :
    (∀ e, Token.tokenize file text = .error e → e.span.InText text file) ∧
    (∀ es, parse text file firstId = .error es → ∀ e ∈ es, e.span.InText text file) ∧
    (∀ p next, parse text file firstId = .ok (p, next) →
      SpanTree.InOrder (.ofText text file) 0 text.utf8ByteSize (p.items.map Item.places) ∧
      (∀ s ∈ p.spans, s.InText text file) ∧
      ∀ d ∈ p.analyze.diagnostics, ∀ s ∈ d.span, s.InText text file) ∧
    ∀ s : Span, s.InText text file →
      Token.byteLength (Text.cutAtByte s.start text.toList).1 = s.start := by
  refine ⟨fun e => Token.inText_of_tokenize, fun es hes e he => ?_, fun p next hp => ?_,
    fun s hs => Text.byteLength_cutAtByte hs.start_valid⟩
  · rcases mistake_of_parse hes he with htok | ⟨tokens, htok, hblame⟩
    · exact Token.inText_of_tokenize htok
    · exact hblame.span _ (Tree.Cursor.placed_ofTokens htok)
  · obtain ⟨tokens, c, htok, ⟨-, hitems, -⟩, -⟩ := exists_of_parse hp
    have hplaced : (Tree.Cursor.ofTokens tokens firstId).Placed _ := Tree.Cursor.placed_ofTokens htok
    have hin := (hitems.places _ hplaced).mono (Nat.zero_le _)
      (Nat.le_trans (Nat.min_le_left ..) ((hitems.placed hplaced).fits _ (.head _)).inside)
    exact ⟨hin, hin.fits_all, fun d hd s hs => hin.fits_all s (mem_spans_of_report hd hs)⟩

end Program

end StructLang
