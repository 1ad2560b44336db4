import StructLang.Proofs.Cuts
import StructLang.Proofs.Grammar

/-!
# Spelling tokens

Each kind of token but the end of the file and floating-point numbers has a canonical spelling. Texts
that spell tokens in this way, with single blanks between them, have exactly these tokens.
-/

namespace StructLang.Token

open scoped CoreNumbers

/-- A character between quotes; a quote and a backslash get a backslash in front. -/
def escape (c : Char) : List Char := if c = '"' ∨ c = '\\' then ['\\', c] else [c]

namespace Kind

/-- The canonical spelling. Floating-point numbers and the end of the file are not spelled. -/
def spelling : Token.Kind → String
  | .keyword word => word.spelling
  | .symbol mark => mark.spelling
  | .name s => s
  | .integer value long => toString value ++ (if long then "L" else "")
  | .text value => String.ofList ('"' :: (value.toList.flatMap escape ++ ['"']))
  | .float .. | .endOfFile => ""

/-- A token that can be spelled: a name has the form of a name and is no reserved word, and an integer
lies below `2 ^ 63`. -/
def Spellable : Token.Kind → Prop
  | .keyword _ | .symbol _ | .text _ => True
  | .name s => IsName s ∧ ∀ word : Keyword, s ≠ word.spelling
  | .integer value _ => value < 2 ^ (63 : Nat)
  | .float .. | .endOfFile => False

end Kind

/-! ## Words -/

theorem isName_spelling (word : Keyword) : IsName word.spelling := by
  cases word <;> exact ⟨_, _, rfl, rfl, List.all_eq_true.mp rfl⟩

theorem wordKind_spelling (word : Keyword) : wordKind word.spelling.toList = .keyword word := by
  rw [wordKind, String.ofList_toList, Keyword.ofSpelling?_spelling]

theorem wordKind_of_ne (h : ∀ word : Keyword, s ≠ word.spelling) : wordKind s.toList = .name s := by
  have hnone : Keyword.ofSpelling? s = none := by
    refine List.find?_eq_none.mpr fun word _ hword => ?_
    exact h word (eq_of_beq hword).symm
  rw [wordKind, String.ofList_toList, hnone]

theorem isLexeme_word (h : IsName s) : IsLexeme s.toList (wordKind s.toList) [] := by
  obtain ⟨c, cs, hs, hc, hcs⟩ := h
  rw [hs]
  exact .word hc hcs (by simp [Stops])

/-! ## Numbers and texts -/

theorem isDigits_toDigits (n : Nat) : IsDigits (Nat.toDigits 10 n) :=
  ⟨Nat.toDigits_ne_nil, fun _ hc => Nat.isDigit_of_mem_toDigits (by omega) (by omega) hc⟩

theorem decimalValue_toDigits (n : Nat) : decimalValue (Nat.toDigits 10 n) = n := by
  rw [decimalValue, ← Nat.ofDigitChars_eq_foldl, Nat.ofDigitChars_ten_toDigits]

theorem quoted_escape (value : List Char) : Quoted (value.flatMap escape) value := by
  induction value with
  | nil => exact .nil
  | cons c value ih =>
    rw [List.flatMap_cons, escape]
    split
    · next hc =>
      have hsame : unescape c = c := by
        rcases hc with rfl | rfl <;> rfl
      have hquoted := Quoted.escaped (c := c) ih
      rwa [hsame] at hquoted
    · next hc =>
      rw [not_or] at hc
      exact .plain hc.1 hc.2 ih

/-- The spelling of a token is a lexeme of its kind. -/
theorem Kind.Spellable.isLexeme {kind : Token.Kind} (h : kind.Spellable) :
    IsLexeme kind.spelling.toList kind [] := by
  cases kind with
  | keyword word =>
    have hword := isLexeme_word (isName_spelling word)
    rwa [wordKind_spelling] at hword
  | symbol mark => exact .symbol (by simp [Stops])
  | name s =>
    have hword := isLexeme_word h.1
    rwa [wordKind_of_ne h.2] at hword
  | integer value long =>
    have hvalue : decimalValue (Nat.toDigits 10 value) < 2 ^ (63 : Nat) := by
      rw [decimalValue_toDigits]
      exact h
    have hdigits : (toString value).toList = Nat.toDigits 10 value := by
      simp [ToString.toString, Nat.repr_eq_ofList_toDigits]
    rw [spelling, String.toList_append, hdigits]
    cases long with
    | false =>
      have hnumber := @IsLexeme.integer _ [] (isDigits_toDigits value) hvalue (by simp [Stops])
        (by simp [Stops]) (by simp [NoFraction])
      rw [decimalValue_toDigits] at hnumber
      rwa [if_neg Bool.false_ne_true, String.toList_empty, List.append_nil]
    | true =>
      have hnumber := @IsLexeme.long _ [] (isDigits_toDigits value) hvalue
      rwa [decimalValue_toDigits] at hnumber
  | text value =>
    have htext := @IsLexeme.text _ _ [] (quoted_escape value.toList)
    rw [String.ofList_toList] at htext
    rwa [spelling, String.toList_ofList]
  | float | endOfFile => exact h.elim

/-- Spelled tokens are read back. -/
theorem tokenize_spelling (file : Nat) (kinds : List Token.Kind) (h : ∀ kind ∈ kinds, kind.Spellable) :
    ∃ tokens, tokenize file (" ".intercalate (kinds.map Kind.spelling)) = .ok tokens ∧
      tokens.map Token.kind = kinds ++ [.endOfFile] := by
  obtain ⟨tokens, htokens, hkinds⟩ := tokenize_intercalate file
    (kinds.map fun kind => (kind.spelling.toList, kind)) (by
      intro w hw
      obtain ⟨kind, hkind, rfl⟩ := List.mem_map.mp hw
      exact (h kind hkind).isLexeme)
  refine ⟨tokens, by simpa [Function.comp_def] using htokens, ?_⟩
  simpa [Function.comp_def] using hkinds

/-- A name that begins like a reserved word, the largest integer, a text with a quote, a backslash, a line
break and the mark of a comment in it, and symbols that would merge without the blank. -/
def sampleKinds : List Token.Kind :=
  [.keyword .ifKw, .name "if_é", .integer (2 ^ (63 : Nat) - 1) true, .text "\"\\\n//", .symbol .slash,
    .symbol .slash]

theorem tokenize_spelling_sample :
    (∀ kind ∈ sampleKinds, kind.Spellable) ∧
    ∃ tokens, tokenize 0 (" ".intercalate (sampleKinds.map Kind.spelling)) = .ok tokens ∧
      tokens.map Token.kind = sampleKinds ++ [.endOfFile] := by
  have hname : IsName "if_é" := ⟨'i', _, rfl, rfl, List.all_eq_true.mp rfl⟩
  have hword : ∀ word : Keyword, "if_é" ≠ word.spelling := fun word => by cases word <;> decide
  have h : ∀ kind ∈ sampleKinds, kind.Spellable := by
    simp only [sampleKinds, List.forall_mem_cons, Kind.Spellable]
    exact ⟨trivial, ⟨hname, hword⟩, by decide, trivial, trivial, trivial, by simp⟩
  exact ⟨h, tokenize_spelling 0 _ h⟩

end StructLang.Token
