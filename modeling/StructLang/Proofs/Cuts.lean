import StructLang.Proofs.Lexemes
import StructLang.Text.Location

/-!
# Cutting a text into lexemes

A text that is cut into tokens is an alternation of gaps and lexemes: `Cuts` lists them, and `tokenize`
succeeds exactly on texts that have such a cut, with the tokens placed at their bytes
(`tokenize_eq_ok_iff`). From a cut follow what spans say about the text, and that each lexeme is found
again on its own or between single blanks.
-/

namespace StructLang

namespace Token

/-! ## Gaps -/

/-- Blanks and comments, each comment with the line break behind it. -/
inductive Gap : List Char → Prop where
  | nil : Gap []
  | blank {c : Char} {cs : List Char} (hc : isBlank c = true) (h : Gap cs) : Gap (c :: cs)
  | comment {body cs : List Char} (hbody : '\n' ∉ body) (h : Gap cs) :
      Gap ('/' :: '/' :: (body ++ '\n' :: cs))

/-- A gap at the end of a text, where no line break has to follow the last comment. -/
inductive FinalGap : List Char → Prop where
  | whole {cs : List Char} (h : Gap cs) : FinalGap cs
  | comment {gap body : List Char} (h : Gap gap) (hbody : '\n' ∉ body) :
      FinalGap (gap ++ '/' :: '/' :: body)

theorem Gap.append (h : Gap gap) (h' : Gap gap') : Gap (gap ++ gap') := by
  induction h with
  | nil => exact h'
  | blank hc _ ih => exact .blank hc ih
  | comment hbody _ ih =>
    rw [List.cons_append, List.cons_append, List.append_assoc]
    exact .comment hbody ih

theorem FinalGap.append (h : FinalGap last) (hgap : Gap gap) : FinalGap (gap ++ last) := by
  cases h with
  | whole h => exact .whole (hgap.append h)
  | comment h hbody =>
    rw [← List.append_assoc]
    exact .comment (hgap.append h) hbody

theorem splitGap_comment (h : '\n' ∉ body) (cs : List Char) : splitGap true (body ++ '\n' :: cs) =
      (body ++ '\n' :: (splitGap false cs).1, (splitGap false cs).2) := by
  induction body with
  | nil => rfl
  | cons c body ih =>
    rw [List.mem_cons, not_or] at h
    have hc : (c != '\n') = true := bne_iff_ne.mpr (Ne.symm h.1)
    rw [List.cons_append, splitGap, if_pos rfl, hc, ih h.2]
    rfl

theorem splitGap_lastComment (h : '\n' ∉ body) : splitGap true body = (body, []) := by
  induction body with
  | nil => rfl
  | cons c body ih =>
    rw [List.mem_cons, not_or] at h
    have hc : (c != '\n') = true := bne_iff_ne.mpr (Ne.symm h.1)
    rw [splitGap, if_pos rfl, hc, ih h.2]
    rfl

theorem splitGap_slashes (cs : List Char) : splitGap false ('/' :: '/' :: cs) =
    ('/' :: '/' :: (splitGap true cs).1, (splitGap true cs).2) := rfl

theorem splitGap_of_beginsToken (h : BeginsToken cs) :
    splitGap false cs = ([], cs) := by
  obtain ⟨c, rest, rfl, hblank, hcomment⟩ := h
  simp [splitGap, hblank, hcomment]

theorem splitGap_append (h : Gap gap) (cs : List Char) :
    splitGap false (gap ++ cs) = (gap ++ (splitGap false cs).1, (splitGap false cs).2) := by
  induction h with
  | nil => rfl
  | blank hc _ ih => simp [splitGap, hc, ih]
  | comment hbody _ ih =>
    simp only [List.cons_append, List.append_assoc, splitGap_slashes, splitGap_comment hbody, ih]

theorem splitGap_of_finalGap (h : FinalGap gap) :
    splitGap false gap = (gap, []) := by
  cases h with
  | whole h => simpa [splitGap] using splitGap_append h []
  | comment h hbody => rw [splitGap_append h, splitGap_slashes, splitGap_lastComment hbody]

theorem exists_gap (cs : List Char) :
    FinalGap cs ∨ ∃ gap body, cs = gap ++ body ∧ Gap gap ∧ BeginsToken body := by
  induction hn : cs.length using Nat.strongRecOn generalizing cs with
  | ind n ih =>
    subst hn
    cases cs with
    | nil => exact .inl (.whole .nil)
    | cons c cs =>
      by_cases hc : isBlank c = true
      · rcases ih _ (by simp) cs rfl with h | ⟨gap, body, rfl, hgap, hbody⟩
        · exact .inl (h.append (.blank hc .nil))
        · exact .inr ⟨c :: gap, body, rfl, .blank hc hgap, hbody⟩
      by_cases hcomment : c = '/' ∧ cs.head? = some '/'
      · obtain ⟨rfl, hslash⟩ := hcomment
        obtain ⟨cs, rfl⟩ := List.head?_eq_some_iff.mp hslash
        by_cases hbreak : '\n' ∈ cs
        · obtain ⟨line, rest, rfl, hline⟩ := List.eq_append_cons_of_mem hbreak
          rcases ih _ (by simp; omega) rest rfl with h | ⟨gap, body, rfl, hgap, hbody⟩
          · have hfirst := h.append (.comment hline .nil)
            simp only [List.cons_append, List.append_assoc, List.nil_append] at hfirst
            exact .inl hfirst
          · exact .inr ⟨_, body, by simp, .comment hline hgap, hbody⟩
        · exact .inl (.comment .nil hbreak)
      exact .inr ⟨[], c :: cs, rfl, .nil, c, cs, rfl, by simpa using hc, hcomment⟩

/-! ## Cuts -/

/-- A lexeme with the gap in front of it. -/
structure Piece where
  gap : List Char
  chars : List Char
  kind : Token.Kind

/-- The text is these pieces one after the other and a last gap. -/
inductive Cuts : List Char → List Piece → Prop where
  | done {last : List Char} (h : FinalGap last) : Cuts last []
  | piece {gap chars rest : List Char} {kind : Token.Kind} {pieces : List Piece} (hgap : Gap gap)
      (hlexeme : IsLexeme chars kind rest) (h : Cuts rest pieces) :
      Cuts (gap ++ (chars ++ rest)) (⟨gap, chars, kind⟩ :: pieces)

/-- The tokens of the pieces from byte `pos` on. -/
def placed (file : Nat) : Nat → List Piece → List Token
  | _, [] => []
  | pos, p :: ps =>
    let start := pos + byteLength p.gap
    let stop := start + byteLength p.chars
    ⟨p.kind, ⟨start, stop, file⟩⟩ :: placed file stop ps

@[simp] theorem byteLength_nil : byteLength [] = 0 := rfl

@[simp] theorem byteLength_append (cs ds : List Char) :
    byteLength (cs ++ ds) = byteLength cs + byteLength ds := by
  simp [byteLength]

def withEnd (file stop : Nat) (words : List Token) : List Token :=
  words ++ [⟨.endOfFile, ⟨stop, stop, file⟩⟩]

theorem scanFrom_of_finalGap (h : FinalGap cs) :
    scanFrom file (fuel + 1) pos cs = [.ok ⟨.endOfFile,
      ⟨pos + byteLength cs, pos + byteLength cs, file⟩⟩] := by
  simp only [scanFrom, splitGap_of_finalGap h]

theorem scanFrom_piece {file fuel pos : Nat} {gap chars rest : List Char} {kind : Token.Kind}
    (hgap : Gap gap) (hlexeme : IsLexeme chars kind rest) :
    scanFrom file (fuel + 1) pos (gap ++ (chars ++ rest)) =
      .ok ⟨kind, ⟨pos + byteLength gap, pos + byteLength gap + byteLength chars, file⟩⟩ ::
        scanFrom file fuel (pos + byteLength gap + byteLength chars) rest := by
  have hbegins := hlexeme.beginsToken
  obtain ⟨c, cs, htext, -⟩ := id hbegins
  rw [htext] at hbegins ⊢
  have hsplit := splitGap_of_beginsToken hbegins
  have hread := (readLexeme_eq_ok_iff hbegins).mpr ⟨htext, hlexeme⟩
  simp only [scanFrom, splitGap_append hgap, hsplit, List.append_nil, hread]

theorem scanFrom_of_error (hgap : Gap gap) (hbegins : BeginsToken (c :: cs))
    (h : readLexeme c cs = ⟨chars, .error cause, rest⟩) :
    ∃ e entries, scanFrom file (fuel + 1) pos (gap ++ c :: cs) = .error e :: entries := by
  simp only [scanFrom, splitGap_append hgap, splitGap_of_beginsToken hbegins, List.append_nil, h]
  exact ⟨_, _, rfl⟩

theorem firstMistake_cons_ok :
    firstMistake (.ok a :: xs) = .ok ys ↔ ∃ zs, firstMistake xs = .ok zs ∧ ys = a :: zs := by
  rw [firstMistake]
  cases firstMistake xs with
  | error e =>
    constructor
    · intro h
      cases h
    · rintro ⟨_, h, _⟩
      cases h
  | ok zs =>
    constructor
    · intro h
      cases h
      exact ⟨zs, rfl, rfl⟩
    · rintro ⟨_, h, rfl⟩
      cases h
      rfl

theorem IsLexeme.length_pos {kind : Token.Kind} (h : IsLexeme chars kind rest) :
    0 < chars.length := by
  obtain ⟨c, cs, rfl, -⟩ := h.exists_head
  exact Nat.succ_pos _

/-- Scanning finds no mistake in exactly the texts that have a cut, and places its lexemes. -/
theorem firstMistake_scanFrom_iff (hfuel : cs.length < fuel) :
    firstMistake (scanFrom file fuel pos cs) = .ok tokens ↔ ∃ pieces, Cuts cs pieces ∧
        tokens = withEnd file (pos + byteLength cs) (placed file pos pieces) := by
  induction fuel generalizing pos cs tokens with
  | zero => omega
  | succ fuel ih =>
    -- the rest of a piece is shorter than the text, so the steps that are left suffice for it
    have hstep : ∀ gap chars rest kind, Gap gap → IsLexeme chars kind rest →
        (gap ++ (chars ++ rest)).length < fuel + 1 →
        (firstMistake (scanFrom file (fuel + 1) pos (gap ++ (chars ++ rest))) = .ok tokens ↔
          ∃ pieces, Cuts rest pieces ∧ tokens = withEnd file
            (pos + byteLength (gap ++ (chars ++ rest)))
            (placed file pos (⟨gap, chars, kind⟩ :: pieces))) := by
      intro gap chars rest kind hgap hlexeme hlength
      have hpos := hlexeme.length_pos
      rw [List.length_append, List.length_append] at hlength
      rw [scanFrom_piece hgap hlexeme, firstMistake_cons_ok]
      simp only [ih (show rest.length < fuel by omega), byteLength_append, ← Nat.add_assoc]
      constructor
      · rintro ⟨_, ⟨pieces, hcuts, rfl⟩, rfl⟩
        exact ⟨pieces, hcuts, rfl⟩
      · rintro ⟨pieces, hcuts, rfl⟩
        exact ⟨_, ⟨pieces, hcuts, rfl⟩, rfl⟩
    constructor
    · intro h
      rcases exists_gap cs with hlast | ⟨gap, body, rfl, hgap, hbegins⟩
      · rw [scanFrom_of_finalGap hlast] at h
        cases h
        exact ⟨[], .done hlast, rfl⟩
      obtain ⟨c, cs, hbody, hfirst⟩ := id hbegins
      cases hread : readLexeme c cs with
      | mk chars meaning rest =>
        cases meaning with
        | error cause =>
          rw [hbody] at hbegins h
          obtain ⟨e, entries, hscan⟩ := scanFrom_of_error hgap hbegins hread
          rw [hscan] at h
          cases h
        | ok kind =>
          obtain ⟨htext, hlexeme⟩ := (readLexeme_eq_ok_iff (hbody ▸ hbegins)).mp hread
          obtain rfl : body = chars ++ rest := hbody.trans htext.symm
          obtain ⟨pieces, hcuts, rfl⟩ := (hstep _ _ _ _ hgap hlexeme hfuel).mp h
          exact ⟨_, .piece hgap hlexeme hcuts, rfl⟩
    · rintro ⟨pieces, hcuts, rfl⟩
      cases hcuts with
      | done hlast =>
        rw [scanFrom_of_finalGap hlast]
        rfl
      | piece hgap hlexeme hcuts =>
        exact (hstep _ _ _ _ hgap hlexeme hfuel).mpr ⟨_, hcuts, rfl⟩

theorem byteLength_eq (cs : List Char) : byteLength cs = (String.ofList cs).utf8ByteSize := by
  induction cs with
  | nil => rfl
  | cons c cs ih =>
    rw [← List.singleton_append, byteLength_append, ih, String.ofList_append,
      String.utf8ByteSize_append, ← String.singleton_eq_ofList, String.utf8ByteSize_singleton]
    simp [byteLength]

theorem byteLength_toList (s : String) : byteLength s.toList = s.utf8ByteSize := by
  rw [byteLength_eq, String.ofList_toList]

theorem tokenize_eq_ok_iff : tokenize file source = .ok tokens ↔
      ∃ pieces, Cuts source.toList pieces ∧
        tokens = withEnd file source.utf8ByteSize (placed file 0 pieces) := by
  rw [tokenize, scan, firstMistake_scanFrom_iff (Nat.lt_succ_self _), Nat.zero_add,
    byteLength_toList]

/-! ## Lexemes on their own -/

theorem IsLexeme.cuts {kind : Token.Kind} (h : IsLexeme chars kind []) :
    Cuts chars [⟨[], chars, kind⟩] := by
  simpa using Cuts.piece .nil h (.done (.whole .nil))

theorem Cuts.blank (hc : isBlank c = true) (h : Cuts cs pieces) :
    ∃ pieces', Cuts (c :: cs) pieces' ∧ pieces'.map Piece.kind = pieces.map Piece.kind := by
  cases h with
  | done h => exact ⟨[], .done (h.append (.blank hc .nil)), rfl⟩
  | piece hgap hlexeme h => exact ⟨_, .piece (.blank hc hgap) hlexeme h, rfl⟩

theorem cuts_intercalate (words : List (List Char × Token.Kind))
    (h : ∀ w ∈ words, IsLexeme w.1 w.2 []) :
    ∃ pieces, Cuts ([' '].intercalate (words.map Prod.fst)) pieces ∧
      pieces.map Piece.kind = words.map Prod.snd := by
  induction words with
  | nil => exact ⟨[], .done (.whole .nil), rfl⟩
  | cons w words ih =>
    obtain ⟨hw, hwords⟩ := List.forall_mem_cons.mp h
    cases words with
    | nil => exact ⟨_, by simpa using hw.cuts, rfl⟩
    | cons v words =>
      obtain ⟨pieces, hcuts, hkinds⟩ := ih hwords
      obtain ⟨pieces', hcuts', hkinds'⟩ := hcuts.blank (c := ' ') rfl
      refine ⟨⟨[], w.1, w.2⟩ :: pieces', ?_, by simp [hkinds', hkinds]⟩
      simpa [List.intercalate] using Cuts.piece .nil (hw.follow (.blank rfl _ _)) hcuts'

theorem map_kind_placed (file pos : Nat) (pieces : List Piece) :
    (placed file pos pieces).map Token.kind = pieces.map Piece.kind := by
  induction pieces generalizing pos with
  | nil => rfl
  | cons p ps ih => exact congrArg (p.kind :: ·) (ih _)

theorem tokenize_intercalate (file : Nat) (words : List (List Char × Token.Kind))
    (h : ∀ w ∈ words, IsLexeme w.1 w.2 []) :
    ∃ tokens, tokenize file (" ".intercalate (words.map (String.ofList ·.1))) = .ok tokens ∧
      tokens.map Token.kind = words.map Prod.snd ++ [.endOfFile] := by
  obtain ⟨pieces, hcuts, hkinds⟩ := cuts_intercalate words h
  have htext : (" ".intercalate (words.map (String.ofList ·.1))).toList =
      [' '].intercalate (words.map Prod.fst) := by
    simp [String.toList_intercalate, Function.comp_def]
  refine ⟨_, tokenize_eq_ok_iff.mpr ⟨pieces, by rwa [htext], rfl⟩, ?_⟩
  rw [withEnd, List.map_append, map_kind_placed, hkinds]
  rfl

end Token

/-! ## Text at its bytes -/

namespace Text

theorem cutAtByte_append (h : Token.byteLength cs ≤ n) :
    cutAtByte n (cs ++ ds) = (cs ++ (cutAtByte (n - Token.byteLength cs) ds).1,
      (cutAtByte (n - Token.byteLength cs) ds).2) := by
  induction cs generalizing n with
  | nil => rfl
  | cons c cs ih =>
    have hsize := c.utf8Size_pos
    have hcons : Token.byteLength (c :: cs) = c.utf8Size + Token.byteLength cs := by
      simp [Token.byteLength]
    rw [hcons] at h
    obtain ⟨m, rfl⟩ : ∃ m, n = m + 1 := ⟨n - 1, by omega⟩
    rw [List.cons_append, cutAtByte, ih (by omega), hcons, Nat.sub_sub]
    · rfl
    · simp

@[simp] theorem cutAtByte_zero (cs : List Char) : cutAtByte 0 cs = ([], cs) := by
  cases cs <;> rfl

theorem cutAtByte_fst_append_snd (n : Nat) (cs : List Char) :
    (cutAtByte n cs).1 ++ (cutAtByte n cs).2 = cs := by
  fun_induction cutAtByte n cs with
  | case1 | case2 => rfl
  | case3 n c rest hn before after hcut ih =>
    rw [hcut] at ih
    exact congrArg (c :: ·) ih

def between (text : String) (start stop : Nat) : String :=
  String.ofList (cutAtByte (stop - start) (cutAtByte start text.toList).2).1

theorem cutAtByte_ne_nil (hn : 0 < n) (hcs : cs ≠ []) : (cutAtByte n cs).1 ≠ [] := by
  cases cs with
  | nil => exact absurd rfl hcs
  | cons c cs =>
    obtain ⟨m, rfl⟩ : ∃ m, n = m + 1 := ⟨n - 1, by omega⟩
    simp [cutAtByte]

def Left (text : String) (pos : Nat) (cs : List Char) : Prop :=
  ∃ before, text.toList = before ++ cs ∧ Token.byteLength before = pos

namespace Left

theorem whole (text : String) : Left text 0 text.toList := ⟨[], rfl, rfl⟩

theorem skip (h : Left text pos (cs ++ ds)) : Left text (pos + Token.byteLength cs) ds := by
  obtain ⟨before, htext, rfl⟩ := h
  exact ⟨before ++ cs, by rw [htext, List.append_assoc], Token.byteLength_append _ _⟩

theorem size (h : Left text pos cs) : text.utf8ByteSize = pos + Token.byteLength cs := by
  obtain ⟨before, htext, rfl⟩ := h
  rw [← Token.byteLength_toList, htext, Token.byteLength_append]

theorem cutAtByte_snd (h : Left text pos cs) : (cutAtByte pos text.toList).2 = cs := by
  obtain ⟨before, htext, rfl⟩ := h
  rw [htext, cutAtByte_append (Nat.le_refl _), Nat.sub_self, cutAtByte_zero]

theorem between (h : Left text pos (cs ++ ds)) :
    between text pos (pos + Token.byteLength cs) = String.ofList cs := by
  rw [Text.between, h.cutAtByte_snd, Nat.add_sub_cancel_left, cutAtByte_append (Nat.le_refl _),
    Nat.sub_self, cutAtByte_zero, List.append_nil]

theorem between_size (h : Left text pos cs) :
    Text.between text pos text.utf8ByteSize = String.ofList cs := by
  rw [h.size]
  exact Left.between (by rwa [List.append_nil])

end Left

end Text

def Span.textIn (source : String) (s : Span) : String := Text.between source s.start s.stop

end StructLang
