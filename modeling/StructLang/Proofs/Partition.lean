import StructLang.Proofs.Cuts

/-!
# Tokens partition their text

A text without mistakes is its tokens with gaps between them. Spans follow each other and cut the text
without loss, each token is the longest lexeme at its place, and a lexeme alone decides the kind of its
token: it is read in the same way on its own and between single blanks.
-/

namespace StructLang.Token

/-! ## Placed tokens -/

open Text (Left between)

variable {file pos : Nat} {source : String} {cs : List Char}

theorem exists_lexeme_of_mem_placed (h : Cuts cs pieces) (hleft : Left source pos cs) {t : Token}
    (ht : t ∈ placed file pos pieces) :
    ∃ chars rest, Left source t.span.start (chars ++ rest) ∧ IsLexeme chars t.kind rest ∧
      t.span.stop = t.span.start + byteLength chars ∧ t.span.file = file := by
  induction h generalizing pos with
  | done => simp [placed] at ht
  | piece hgap hlexeme _ ih =>
    rcases List.mem_cons.mp ht with rfl | ht
    · exact ⟨_, _, hleft.skip, hlexeme, rfl, rfl⟩
    · exact ih hleft.skip.skip ht

theorem pairwise_placed (pos : Nat) (pieces : List Piece) :
    (∀ t ∈ placed file pos pieces, pos ≤ t.span.start) ∧
      (placed file pos pieces).Pairwise fun a b => a.span.stop ≤ b.span.start := by
  induction pieces generalizing pos with
  | nil => simp [placed]
  | cons p ps ih =>
    obtain ⟨hle, hpair⟩ := ih (pos + byteLength p.gap + byteLength p.chars)
    refine ⟨List.forall_mem_cons.mpr ⟨Nat.le_add_right _ _, fun t ht => ?_⟩, .cons hle hpair⟩
    exact Nat.le_trans (by omega) (hle t ht)

def endOf (pos : Nat) : List Token → Nat
  | [] => pos
  | t :: ts => endOf t.span.stop ts

/-- The texts of the gaps and the tokens by turns, from byte `pos` to the end. -/
def laidOut (source : String) : Nat → List Token → List String
  | pos, [] => [between source pos source.utf8ByteSize]
  | pos, t :: ts =>
    between source pos t.span.start :: t.span.textIn source :: laidOut source t.span.stop ts

theorem join_laidOut (h : Cuts cs pieces) (hleft : Left source pos cs) :
    String.join (laidOut source pos (placed file pos pieces)) = String.ofList cs := by
  induction h generalizing pos with
  | done => simp [placed, laidOut, hleft.between_size]
  | piece hgap hlexeme _ ih =>
    simp only [placed, laidOut, Span.textIn, hleft.between, hleft.skip.between, String.join_cons,
      ih hleft.skip.skip, String.ofList_append]

theorem map_textIn_placed (h : Cuts cs pieces) (hleft : Left source pos cs) :
    (placed file pos pieces).map (·.span.textIn source) = pieces.map (String.ofList ·.chars) := by
  induction h generalizing pos with
  | done => rfl
  | piece hgap hlexeme _ ih =>
    rw [placed, List.map_cons, ih hleft.skip.skip, List.map_cons, Span.textIn, hleft.skip.between]

theorem gaps_placed (h : Cuts cs pieces) (hleft : Left source pos cs) :
    (∀ front t back, placed file pos pieces = front ++ t :: back →
      Gap (between source (endOf pos front) t.span.start).toList) ∧
    FinalGap (between source (endOf pos (placed file pos pieces)) source.utf8ByteSize).toList := by
  induction h generalizing pos with
  | done hlast =>
    refine ⟨fun front t back hplaced => by simp [placed] at hplaced, ?_⟩
    simpa [placed, endOf, hleft.between_size] using hlast
  | piece hgap hlexeme _ ih =>
    obtain ⟨hgaps, hlast⟩ := ih hleft.skip.skip
    refine ⟨fun front t back hplaced => ?_, hlast⟩
    cases front with
    | nil =>
      obtain ⟨rfl, -⟩ := List.cons.inj hplaced
      simpa [endOf, hleft.between] using hgap
    | cons u front =>
      obtain ⟨rfl, hrest⟩ := List.cons.inj hplaced
      exact hgaps front t back hrest

/-! ## One token -/

/-- The text is a single token of this kind, from its first byte to its last. -/
def IsOne (file : Nat) (text : String) (kind : Token.Kind) : Prop :=
  tokenize file text =
    .ok (withEnd file text.utf8ByteSize [⟨kind, ⟨0, text.utf8ByteSize, file⟩⟩])

variable {kind : Token.Kind}

theorem IsLexeme.isOne (h : IsLexeme chars kind []) (file : Nat) :
    IsOne file (String.ofList chars) kind := by
  refine tokenize_eq_ok_iff.mpr ⟨_, by simpa using h.cuts, ?_⟩
  simp [placed, byteLength_eq]

theorem byteLength_pos (h : cs ≠ []) : 0 < byteLength cs := by
  cases cs with
  | nil => exact absurd rfl h
  | cons c cs =>
    have := c.utf8Size_pos
    simp only [byteLength, List.map_cons, List.sum_cons]
    omega

theorem IsLexeme.not_isOne (h : IsLexeme chars kind more) (hmore : more ≠ []) (file : Nat)
    (kind' : Token.Kind) : ¬IsOne file (String.ofList (chars ++ more)) kind' := by
  intro hone
  have hscan := @scanFrom_piece file (chars ++ more).length 0 [] chars more kind .nil h
  rw [List.nil_append] at hscan
  rw [IsOne, tokenize, scan, String.toList_ofList, hscan, firstMistake_cons_ok, ← byteLength_eq] at hone
  obtain ⟨_, -, hcons⟩ := hone
  have hsize : byteLength (chars ++ more) = byteLength chars := by
    simpa using congrArg (·.span.stop) (List.cons.inj hcons).1
  have := byteLength_pos hmore
  rw [byteLength_append] at hsize
  omega

/-! ## The partition -/

/-- What the tokens of a text, the end of the file not counted, say about it. -/
structure Partitions (file : Nat) (source : String) (words : List Token) : Prop where
  /-- All tokens belong to the file. -/
  sameFile : ∀ t ∈ words, t.span.file = file
  /-- Only the end of the file is one. -/
  noEnd : ∀ t ∈ words, t.kind ≠ .endOfFile
  /-- No token is empty, and none goes beyond the text. -/
  proper : ∀ t ∈ words, t.span.start < t.span.stop ∧ t.span.stop ≤ source.utf8ByteSize
  /-- Tokens come in order and share no byte. -/
  ordered : words.Pairwise fun a b => a.span.stop ≤ b.span.start
  /-- In front of each token there are blanks and comments only. -/
  gaps : ∀ front t back, words = front ++ t :: back →
    Gap (between source (endOf 0 front) t.span.start).toList
  /-- Behind the last token there are blanks and comments only. -/
  lastGap : FinalGap (between source (endOf 0 words) source.utf8ByteSize).toList
  /-- Gaps and tokens together are the text. -/
  whole : String.join (laidOut source 0 words) = source
  /-- The text of a token is that token. -/
  alone : ∀ t ∈ words, ∀ file', IsOne file' (t.span.textIn source) t.kind
  /-- No token could be longer. -/
  longest : ∀ t ∈ words, ∀ stop, t.span.stop < stop → stop ≤ source.utf8ByteSize →
    ∀ file' kind, ¬IsOne file' (between source t.span.start stop) kind
  /-- The texts of the tokens, with single blanks between them, have the same kinds of tokens. -/
  joined : ∀ file', ∃ tokens,
    tokenize file' (" ".intercalate (words.map (·.span.textIn source))) = .ok tokens ∧
      tokens.map Token.kind = words.map Token.kind ++ [.endOfFile]

theorem Cuts.isLexeme (h : Cuts cs pieces) (hp : p ∈ pieces) : IsLexeme p.chars p.kind [] := by
  induction h with
  | done => simp at hp
  | piece hgap hlexeme _ ih =>
    rcases List.mem_cons.mp hp with rfl | hp
    · exact hlexeme.follow (.nil _)
    · exact ih hp

theorem IsLexeme.kind_ne_endOfFile (h : IsLexeme chars kind rest) : kind ≠ .endOfFile := by
  rintro hkind
  cases h with
  | @word c cs =>
    unfold wordKind at hkind
    dsimp only at hkind
    split at hkind <;> cases hkind
  | integer | long | text | symbol => cases hkind
  | double _ _ hfloat | single _ _ hfloat =>
    obtain ⟨value, rfl⟩ := eq_float_of_floatKind hfloat
    cases hkind

theorem IsLexeme.longest (h : IsLexeme chars kind rest)
    (hleft : Left source pos (chars ++ rest)) (hstop : pos + byteLength chars < stop)
    (hsize : stop ≤ source.utf8ByteSize) (file : Nat) (kind' : Token.Kind) :
    ¬IsOne file (between source pos stop) kind' := by
  have hrest : rest ≠ [] := by
    rintro rfl
    rw [hleft.size, List.append_nil] at hsize
    omega
  have hstart : (Text.cutAtByte (stop - pos - byteLength chars) rest).1 <+: rest :=
    ⟨_, Text.cutAtByte_fst_append_snd _ _⟩
  rw [between, hleft.cutAtByte_snd, Text.cutAtByte_append (by omega)]
  exact (h.follow (.of_start hstart)).not_isOne (Text.cutAtByte_ne_nil (by omega) hrest) file kind'

/-- The tokens of a text partition it. -/
theorem tokenize_partitions {file : Nat} {source : String} {tokens : List Token}
    (h : tokenize file source = .ok tokens) :
    ∃ words, tokens = words ++
        [⟨.endOfFile, ⟨source.utf8ByteSize, source.utf8ByteSize, file⟩⟩] ∧
      Partitions file source words := by
  obtain ⟨pieces, hcuts, rfl⟩ := tokenize_eq_ok_iff.mp h
  have hleft := Left.whole source
  have hlexeme := fun t ht => @exists_lexeme_of_mem_placed file 0 source _ pieces hcuts hleft t ht
  have hgaps := @gaps_placed file 0 source _ pieces hcuts hleft
  refine ⟨placed file 0 pieces, rfl, ?_⟩
  exact {
    sameFile := fun t ht => by
      obtain ⟨chars, rest, -, -, -, hfile⟩ := hlexeme t ht
      exact hfile
    noEnd := fun t ht => by
      obtain ⟨chars, rest, -, hlex, -⟩ := hlexeme t ht
      exact hlex.kind_ne_endOfFile
    proper := fun t ht => by
      obtain ⟨chars, rest, hat, hlex, hstop, -⟩ := hlexeme t ht
      obtain ⟨c, cs, rfl, -⟩ := hlex.exists_head
      have := byteLength_pos (List.cons_ne_nil c cs)
      rw [hstop, hat.size, byteLength_append]
      omega
    ordered := (pairwise_placed 0 pieces).2
    gaps := hgaps.1
    lastGap := hgaps.2
    whole := by rw [join_laidOut hcuts hleft, String.ofList_toList]
    alone := fun t ht file' => by
      obtain ⟨chars, rest, hat, hlex, hstop, -⟩ := hlexeme t ht
      rw [Span.textIn, hstop, hat.between]
      exact (hlex.follow (.nil rest)).isOne file'
    longest := fun t ht stop hlt hle file' kind => by
      obtain ⟨chars, rest, hat, hlex, hstop, -⟩ := hlexeme t ht
      exact hlex.longest hat (by rwa [← hstop]) hle file' kind
    joined := fun file' => by
      obtain ⟨tokens, htokens, hkinds⟩ := tokenize_intercalate file'
        (pieces.map fun p => (p.chars, p.kind)) (by
          intro w hw
          obtain ⟨p, hp, rfl⟩ := List.mem_map.mp hw
          exact hcuts.isLexeme hp)
      refine ⟨tokens, ?_, ?_⟩
      · rw [map_textIn_placed hcuts hleft]
        simpa [Function.comp_def] using htokens
      · rw [hkinds, map_kind_placed, List.map_map]
        rfl }

/-- A comment, a point behind a number that belongs to no fraction, and a symbol with a shorter one
inside it. -/
theorem tokenize_partitions_sample :
    ∃ tokens, tokenize 0 "1.é//x\n<=" = .ok tokens ∧
      tokens.map Token.kind = [.integer 1 false, .symbol .dot, .name "é", .symbol .le, .endOfFile] ∧
      ∃ words, tokens = words ++ [⟨.endOfFile, ⟨10, 10, 0⟩⟩] ∧
        Partitions 0 "1.é//x\n<=" words := by
  have h : tokenize 0 "1.é//x\n<=" = .ok [⟨.integer 1 false, ⟨0, 1, 0⟩⟩, ⟨.symbol .dot, ⟨1, 2, 0⟩⟩,
      ⟨.name "é", ⟨2, 4, 0⟩⟩, ⟨.symbol .le, ⟨8, 10, 0⟩⟩, ⟨.endOfFile, ⟨10, 10, 0⟩⟩] := by
    rfl
  exact ⟨_, h, rfl, tokenize_partitions h⟩

end StructLang.Token
