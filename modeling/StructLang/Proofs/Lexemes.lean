import Mathlib.Data.List.TakeWhile
import StructLang.Token.Scan

/-!
# Lexemes

Which characters spell a token, and where they end. `IsLexeme chars kind rest` is the lexical grammar:
`chars` spell a token of that kind, and what follows them cannot make it longer. `readLexeme` finds
exactly these lexemes (`readLexeme_eq_ok_iff`), whatever character a text begins with.

A lexeme looks at most two characters beyond its end, and a blank ends all of them, so it stays a lexeme
when what follows is cut off or replaced by a blank (`IsLexeme.follow`).
-/

namespace StructLang

open scoped CoreNumbers

/-- The characters that make something longer of it: another symbol, or the mark of a comment. -/
def Symbol.extensions : Symbol → List Char
  | slash => ['/']
  | minus => ['>']
  | bang | assign => ['=']
  | lt => ['<', '=']
  | gt => ['>', '=']
  | _ => []

namespace Token

/-! ## The lexical grammar -/

def Stops (p : Char → Bool) (rest : List Char) : Prop := ∀ c ∈ rest.head?, p c = false

def IsDigits (cs : List Char) : Prop := cs ≠ [] ∧ ∀ c ∈ cs, c.isDigit = true

def NoFraction (rest : List Char) : Prop := ∀ d cs, rest = '.' :: d :: cs → d.isDigit = false

def pointed (fraction : List Char) : List Char := if fraction.isEmpty then [] else '.' :: fraction

/-- What stands between the quotes of a text, and the characters that it means. -/
inductive Quoted : List Char → List Char → Prop where
  | nil : Quoted [] []
  | plain {c : Char} {chars value : List Char} (hquote : c ≠ '"') (hback : c ≠ '\\')
      (h : Quoted chars value) : Quoted (c :: chars) (c :: value)
  | escaped {c : Char} {chars value : List Char} (h : Quoted chars value) :
      Quoted ('\\' :: c :: chars) (unescape c :: value)

/-- The characters spell a token of this kind, and the rest cannot make it longer. -/
inductive IsLexeme : List Char → Token.Kind → List Char → Prop where
  | word {c : Char} {cs rest : List Char} (hc : isNameStart c = true)
      (hcs : ∀ x ∈ cs, isNamePart x = true) (hrest : Stops isNamePart rest) :
      IsLexeme (c :: cs) (wordKind (c :: cs)) rest
  | integer {digits rest : List Char} (hdigits : IsDigits digits)
      (hvalue : decimalValue digits < 2 ^ (63 : Nat))
      (hrest : Stops Char.isDigit rest) (hsuffix : Stops (fun c => c == 'f' || c == 'L') rest)
      (hpoint : NoFraction rest) : IsLexeme digits (.integer (decimalValue digits) false) rest
  | long {digits rest : List Char} (hdigits : IsDigits digits)
      (hvalue : decimalValue digits < 2 ^ (63 : Nat)) :
      IsLexeme (digits ++ ['L']) (.integer (decimalValue digits) true) rest
  | double {whole fraction rest : List Char} {kind : Token.Kind} (hwhole : IsDigits whole)
      (hfraction : IsDigits fraction)
      (hkind : floatKind whole fraction false (whole ++ pointed fraction) = .ok kind)
      (hrest : Stops Char.isDigit rest) (hsuffix : Stops (· == 'f') rest) :
      IsLexeme (whole ++ pointed fraction) kind rest
  | single {whole fraction rest : List Char} {kind : Token.Kind} (hwhole : IsDigits whole)
      (hfraction : ∀ c ∈ fraction, c.isDigit = true)
      (hkind : floatKind whole fraction true (whole ++ pointed fraction ++ ['f']) = .ok kind) :
      IsLexeme (whole ++ pointed fraction ++ ['f']) kind rest
  | text {chars value rest : List Char} (h : Quoted chars value) :
      IsLexeme ('"' :: (chars ++ ['"'])) (.text (String.ofList value)) rest
  | symbol {mark : Symbol} {rest : List Char} (hrest : Stops mark.extensions.contains rest) :
      IsLexeme mark.spelling.toList (.symbol mark) rest

def BeginsToken (cs : List Char) : Prop :=
  ∃ c rest, cs = c :: rest ∧ isBlank c = false ∧ ¬(c = '/' ∧ rest.head? = some '/')

/-! ## Runs of characters -/

variable {rest fraction : List Char} {kind : Token.Kind}

theorem isNamePart_of_isNameStart (h : isNameStart c = true) : isNamePart c = true := by
  simp only [isNameStart, isNamePart, Text.isAlphanumeric, Bool.or_eq_true] at *
  exact h.imp_left Or.inl

theorem Stops.head (h : p c = false) :
    Stops p (c :: rest) := by
  simpa [Stops] using h

theorem stops_dropWhile (p : Char → Bool) (cs : List Char) : Stops p (cs.dropWhile p) := by
  intro c hc
  have h := List.head?_dropWhile_not p cs
  rw [Option.mem_def.mp hc] at h
  exact h

theorem takeWhile_append_stop (h : ∀ c ∈ cs, p c = true) (hrest : Stops p rest) :
    (cs ++ rest).takeWhile p = cs := by
  rw [List.takeWhile_append_of_pos h]
  cases rest with
  | nil => simp
  | cons c rest => simp [hrest c rfl]

theorem dropWhile_append_stop (h : ∀ c ∈ cs, p c = true) (hrest : Stops p rest) :
    (cs ++ rest).dropWhile p = rest := by
  rw [List.dropWhile_append_of_pos h]
  cases rest with
  | nil => simp
  | cons c rest => simp [hrest c rfl]

/-! ## Words -/

theorem readWord_append (h : ∀ c ∈ chars, isNamePart c = true) (hrest : Stops isNamePart rest) :
    readWord (chars ++ rest) = ⟨chars, .ok (wordKind chars), rest⟩ := by
  simp only [readWord, takeWhile_append_stop h hrest, dropWhile_append_stop h hrest]

theorem isLexeme_of_readWord (hc : isNameStart c = true)
    (h : readWord (c :: cs) = ⟨chars, .ok kind, rest⟩) :
    chars ++ rest = c :: cs ∧ IsLexeme chars kind rest := by
  cases h
  refine ⟨List.takeWhile_append_dropWhile, ?_⟩
  rw [List.takeWhile_cons_of_pos (isNamePart_of_isNameStart hc)]
  exact .word hc (fun x hx => List.mem_takeWhile_imp hx) (stops_dropWhile _ _)

/-! ## Numbers -/

theorem readFraction_pointed (h : ∀ c ∈ fraction, c.isDigit = true)
    (hnone : fraction = [] → NoFraction rest) (hsome : fraction ≠ [] → Stops Char.isDigit rest) :
    readFraction (pointed fraction ++ rest) = (fraction, rest) := by
  cases fraction with
  | nil =>
    rw [pointed, List.isEmpty_nil, if_pos rfl, List.nil_append]
    unfold readFraction
    split
    · next d cs => rw [if_neg (by simp [hnone rfl d cs rfl])]
    · rfl
  | cons d ds =>
    have hds : ∀ c ∈ ds, c.isDigit = true := fun c hc => h c (List.mem_cons_of_mem _ hc)
    have hstop := hsome (List.cons_ne_nil d ds)
    simp [pointed, readFraction, h d List.mem_cons_self, takeWhile_append_stop hds hstop,
      dropWhile_append_stop hds hstop]

theorem readFraction_spec (cs : List Char) :
    pointed (readFraction cs).1 ++ (readFraction cs).2 = cs ∧
    (∀ c ∈ (readFraction cs).1, c.isDigit = true) ∧
    ((readFraction cs).1 = [] → NoFraction (readFraction cs).2) ∧
    ((readFraction cs).1 ≠ [] → Stops Char.isDigit (readFraction cs).2) := by
  unfold readFraction
  split
  · next d cs =>
    split
    · next hd =>
      refine ⟨by simp [pointed], List.forall_mem_cons.mpr ⟨hd, fun c hc => List.mem_takeWhile_imp hc⟩,
        by simp, fun _ => stops_dropWhile _ _⟩
    · next hd =>
      refine ⟨by simp [pointed], by simp, fun _ d' cs' h => ?_, by simp⟩
      cases h
      simpa using hd
  · next hform =>
    refine ⟨by simp [pointed], by simp, fun _ d' cs' h => ?_, by simp⟩
    exact absurd h (hform d' cs')

/-- The suffix of a number and its meaning, once its digits are known. -/
def numberEnd (whole fraction : List Char) : List Char → Lexeme
  | 'f' :: rest =>
    let chars := whole ++ pointed fraction ++ ['f']
    ⟨chars, floatKind whole fraction true chars, rest⟩
  | rest =>
    let body := whole ++ pointed fraction
    if !fraction.isEmpty then ⟨body, floatKind whole fraction false body, rest⟩
    else
      match rest with
      | 'L' :: rest =>
        let chars := body ++ ['L']
        ⟨chars, integerKind whole true chars, rest⟩
      | rest => ⟨body, integerKind whole false body, rest⟩

theorem readNumber_eq (cs : List Char) :
    readNumber cs = numberEnd (cs.takeWhile Char.isDigit)
      (readFraction (cs.dropWhile Char.isDigit)).1 (readFraction (cs.dropWhile Char.isDigit)).2 := by
  unfold numberEnd
  rfl

theorem readNumber_append (hwhole : IsDigits whole) (h : ∀ c ∈ fraction, c.isDigit = true)
    (hstop : Stops Char.isDigit rest) (hnone : fraction = [] → NoFraction rest) :
    readNumber (whole ++ (pointed fraction ++ rest)) = numberEnd whole fraction rest := by
  have hpoint : Stops Char.isDigit (pointed fraction ++ rest) := by
    cases fraction with
    | nil => simpa [pointed] using hstop
    | cons d ds => exact .head rfl
  rw [readNumber_eq, takeWhile_append_stop hwhole.2 hpoint, dropWhile_append_stop hwhole.2 hpoint,
    readFraction_pointed h hnone fun _ => hstop]

theorem numberEnd_double (hne : fraction ≠ []) (h : Stops (· == 'f') rest) :
    numberEnd whole fraction rest =
      ⟨whole ++ pointed fraction, floatKind whole fraction false (whole ++ pointed fraction), rest⟩ := by
  unfold numberEnd
  split
  · next rest => exact absurd (h 'f' rfl) (by decide)
  · rw [if_pos (by simpa using hne)]

theorem numberEnd_plain (h : Stops (fun c => c == 'f' || c == 'L') rest) :
    numberEnd whole [] rest = ⟨whole, integerKind whole false whole, rest⟩ := by
  unfold numberEnd
  split
  · next rest => exact absurd (h 'f' rfl) (by decide)
  · rw [if_neg (by simp)]
    split
    · next rest _ => exact absurd (h 'L' rfl) (by decide)
    · simp [pointed]

theorem numberEnd_long (whole rest : List Char) : numberEnd whole [] ('L' :: rest) =
    ⟨whole ++ ['L'], integerKind whole true (whole ++ ['L']), rest⟩ := by
  simp [numberEnd, pointed]

theorem integerKind_eq_ok : integerKind digits long chars = .ok kind ↔
      decimalValue digits < 2 ^ (63 : Nat) ∧ kind = .integer (decimalValue digits) long := by
  unfold integerKind
  by_cases h : decimalValue digits < 2 ^ (63 : Nat)
  · rw [if_pos h, Except.ok.injEq, eq_comm]
    exact ⟨fun hk => ⟨h, hk⟩, And.right⟩
  · rw [if_neg h]
    exact ⟨fun hk => (by cases hk), fun hk => absurd hk.1 h⟩

theorem eq_float_of_floatKind (h : floatKind whole fraction single chars = .ok kind) :
    ∃ value, kind = .float value single := by
  unfold floatKind at h
  dsimp only at h
  split at h <;> split at h <;> cases h <;> exact ⟨_, rfl⟩

theorem stops_beq (h : ∀ cs, rest = a :: cs → False) : Stops (· == a) rest := by
  intro c hc
  obtain ⟨cs, rfl⟩ := List.head?_eq_some_iff.mp hc
  by_cases hca : c = a
  · exact absurd (by rw [hca]) (h cs)
  · simpa using hca

theorem isLexeme_of_numberEnd (hwhole : IsDigits whole)
    (hdigits : ∀ c ∈ fraction, c.isDigit = true) (hstop : Stops Char.isDigit tail)
    (hnone : fraction = [] → NoFraction tail)
    (h : numberEnd whole fraction tail = ⟨chars, .ok kind, rest⟩) :
    chars ++ rest = whole ++ (pointed fraction ++ tail) ∧ IsLexeme chars kind rest := by
  unfold numberEnd at h
  split at h
  · obtain ⟨rfl, hkind, rfl⟩ := Lexeme.mk.inj h
    exact ⟨by simp, .single hwhole hdigits hkind⟩
  · next hf =>
    have hf : Stops (· == 'f') tail := stops_beq hf
    dsimp only at h
    split at h
    · next hne =>
      obtain ⟨rfl, hkind, rfl⟩ := Lexeme.mk.inj h
      exact ⟨by simp, .double hwhole ⟨by simpa using hne, hdigits⟩ hkind hstop hf⟩
    · next hne =>
      obtain rfl : fraction = [] := by simpa using hne
      have hempty : whole ++ pointed [] = whole := by simp [pointed]
      rw [hempty] at h
      split at h
      · obtain ⟨rfl, hkind, rfl⟩ := Lexeme.mk.inj h
        obtain ⟨hvalue, rfl⟩ := integerKind_eq_ok.mp hkind
        exact ⟨by simp [pointed], .long hwhole hvalue⟩
      · next hl =>
        obtain ⟨rfl, hkind, rfl⟩ := Lexeme.mk.inj h
        obtain ⟨hvalue, rfl⟩ := integerKind_eq_ok.mp hkind
        have hsuffix : Stops (fun c => c == 'f' || c == 'L') tail := fun x hx => by
          simp only [hf x hx, stops_beq hl x hx, Bool.or_self]
        exact ⟨by simp [pointed], .integer hwhole hvalue hstop hsuffix (hnone rfl)⟩

theorem isLexeme_of_readNumber (hc : c.isDigit = true)
    (h : readNumber (c :: cs) = ⟨chars, .ok kind, rest⟩) :
    chars ++ rest = c :: cs ∧ IsLexeme chars kind rest := by
  obtain ⟨hcs, hdigits, hnone, hsome⟩ := readFraction_spec ((c :: cs).dropWhile Char.isDigit)
  have hwhole : IsDigits ((c :: cs).takeWhile Char.isDigit) :=
    ⟨by simp [List.takeWhile_cons_of_pos hc], fun x hx => List.mem_takeWhile_imp hx⟩
  have hstop : Stops Char.isDigit (readFraction ((c :: cs).dropWhile Char.isDigit)).2 := by
    by_cases hempty : (readFraction ((c :: cs).dropWhile Char.isDigit)).1 = []
    · have hrest := stops_dropWhile Char.isDigit (c :: cs)
      rwa [← hcs, hempty] at hrest
    · exact hsome hempty
  rw [readNumber_eq] at h
  obtain ⟨htext, hlexeme⟩ := isLexeme_of_numberEnd hwhole hdigits hstop hnone h
  rw [hcs, List.takeWhile_append_dropWhile] at htext
  exact ⟨htext, hlexeme⟩

/-! ## Texts -/

theorem readQuoted_append (h : Quoted chars value) (rest : List Char) :
    readQuoted (chars ++ '"' :: rest) = (chars ++ ['"'], some value, rest) := by
  induction h with
  | nil => simp [readQuoted]
  | plain hquote hback _ ih => simp [readQuoted, hback, ih]
  | escaped _ ih => simp [readQuoted, ih]

theorem quoted_of_readQuoted (h : readQuoted cs = (chars, some value, rest)) :
    ∃ inner, chars = inner ++ ['"'] ∧ cs = inner ++ '"' :: rest ∧ Quoted inner value := by
  fun_induction readQuoted cs generalizing chars value rest with
  | case1 => cases h
  | case2 cs =>
    cases h
    exact ⟨[], rfl, rfl, .nil⟩
  | case3 c cs chars' value' rest' hread ih =>
    simp only [Prod.mk.injEq, Option.map_eq_some_iff] at h
    obtain ⟨rfl, ⟨v, rfl, rfl⟩, rfl⟩ := h
    obtain ⟨inner, rfl, rfl, hq⟩ := ih hread
    exact ⟨'\\' :: c :: inner, rfl, rfl, .escaped hq⟩
  | case4 => cases h
  | case5 c cs hquote hesc hback chars' value' rest' hread ih =>
    simp only [Prod.mk.injEq, Option.map_eq_some_iff] at h
    obtain ⟨rfl, ⟨v, rfl, rfl⟩, rfl⟩ := h
    obtain ⟨inner, rfl, rfl, hq⟩ := ih hread
    refine ⟨c :: inner, rfl, rfl, .plain hquote (fun hc => ?_) hq⟩
    cases inner with
    | nil | cons d inner => exact hesc _ _ hc rfl

/-! ## Symbols -/

theorem symbol?_append (h : Stops mark.extensions.contains rest) :
    symbol? (mark.spelling.toList ++ rest) = some mark := by
  cases rest with
  | nil => cases mark <;> rfl
  | cons c rest =>
    have hc := h c rfl
    cases mark
    case minus | bang | assign | lt | gt =>
      simp_all [Symbol.extensions, Symbol.spelling, symbol?]
    all_goals rfl

theorem eq_append_of_symbol? (hbegins : BeginsToken cs) (h : symbol? cs = some mark) :
    ∃ rest, cs = mark.spelling.toList ++ rest ∧ Stops mark.extensions.contains rest := by
  have hcomment : ∀ rest, cs ≠ '/' :: '/' :: rest := by
    rintro rest rfl
    obtain ⟨_, _, hcs, -, hcomment⟩ := hbegins
    cases hcs
    exact hcomment ⟨rfl, rfl⟩
  unfold symbol? at h
  split at h <;> cases h <;> refine ⟨_, rfl, fun c hc => ?_⟩
  all_goals
    obtain ⟨rest, rfl⟩ := List.head?_eq_some_iff.mp hc
    simp_all [Symbol.extensions]

theorem exists_head_spelling (mark : Symbol) :
    ∃ c cs, mark.spelling.toList = c :: cs ∧ isNameStart c = false ∧ c.isDigit = false ∧ c ≠ '"' ∧
      isBlank c = false ∧ (c = '/' → cs = [] ∧ mark = .slash) := by
  cases mark <;> exact ⟨_, _, rfl, by decide⟩

/-! ## All lexemes -/

theorem isNameStart_of_isDigit (h : c.isDigit = true) : isNameStart c = false := by
  have hrange : 48 ≤ c.val.toNat ∧ c.val.toNat ≤ 57 := by
    simpa [Char.isDigit, UInt32.le_iff_toNat_le] using h
  have halpha : c.isAlpha = false := by
    rw [Bool.eq_false_iff]
    intro ha
    change (decide ('A'.val ≤ c.val ∧ c.val ≤ 'Z'.val) ||
      decide ('a'.val ≤ c.val) && decide (c.val ≤ 'z'.val)) = true at ha
    simp only [Bool.or_eq_true, Bool.and_eq_true, decide_eq_true_eq, UInt32.le_iff_toNat_le] at ha
    have hupper : 'A'.val.toNat = 65 := rfl
    have hlower : 'a'.val.toNat = 97 := rfl
    omega
  have hscore : (c == '_') = false := by
    rw [beq_eq_false_iff_ne]
    rintro rfl
    exact absurd hrange.2 (by decide)
  have hlow : ¬0x80 ≤ c.toNat := fun hle => absurd (Nat.le_trans hle hrange.2) (by decide)
  simp [isNameStart, Text.isAlphabetic, halpha, hscore, hlow]

theorem readLexeme_text (h : Quoted chars value) (rest : List Char) :
    readLexeme '"' (chars ++ '"' :: rest) =
      ⟨'"' :: (chars ++ ['"']), .ok (.text (String.ofList value)), rest⟩ := by
  have hname : isNameStart '"' = false := by decide
  have hdigit : '"'.isDigit = false := by decide
  simp [readLexeme, hname, hdigit, readQuoted_append h]

theorem isLexeme_of_readQuoted (h : readLexeme '"' cs = ⟨chars, .ok kind, rest⟩) :
    chars ++ rest = '"' :: cs ∧ IsLexeme chars kind rest := by
  have hname : isNameStart '"' = false := by decide
  have hdigit : '"'.isDigit = false := by decide
  cases hread : readQuoted cs with
  | mk inner tail =>
    cases tail with
    | mk value rest' =>
      simp only [readLexeme, hname, hdigit, hread] at h
      cases value with
      | none => cases h
      | some value =>
        cases h
        obtain ⟨inner, rfl, rfl, hq⟩ := quoted_of_readQuoted hread
        exact ⟨by simp, .text hq⟩

theorem readLexeme_of_isDigits (h : IsDigits digits) (htext : digits ++ tail = c :: cs) :
    readLexeme c cs = readNumber (digits ++ tail) := by
  have hc : c.isDigit = true := by
    cases digits with
    | nil => exact absurd rfl h.1
    | cons d ds =>
      cases htext
      exact h.2 _ List.mem_cons_self
  rw [readLexeme, if_neg (by simp [isNameStart_of_isDigit hc]), if_pos hc, htext]

/-- The reader cuts off the lexemes of the grammar. -/
theorem readLexeme_eq_ok_iff (hbegins : BeginsToken (c :: cs)) :
    readLexeme c cs = ⟨chars, .ok kind, rest⟩ ↔ chars ++ rest = c :: cs ∧ IsLexeme chars kind rest := by
  constructor
  · intro h
    by_cases hname : isNameStart c = true
    · rw [readLexeme, if_pos hname] at h
      exact isLexeme_of_readWord hname h
    by_cases hdigit : c.isDigit = true
    · rw [readLexeme, if_neg hname, if_pos hdigit] at h
      exact isLexeme_of_readNumber hdigit h
    by_cases hquote : c = '"'
    · subst hquote
      exact isLexeme_of_readQuoted h
    rw [readLexeme, if_neg hname, if_neg hdigit, if_neg hquote] at h
    split at h
    · next mark hmark =>
      obtain ⟨tail, htail, hrest⟩ := eq_append_of_symbol? hbegins hmark
      simp only [htail, ← String.length_toList, List.take_left, List.drop_left] at h
      cases h
      exact ⟨htail.symm, .symbol hrest⟩
    · cases h
  · rintro ⟨htext, h⟩
    cases h with
    | @word c' cs' _ hc hcs hrest =>
      cases htext
      rw [readLexeme, if_pos hc]
      exact readWord_append (List.forall_mem_cons.mpr ⟨isNamePart_of_isNameStart hc, hcs⟩) hrest
    | integer hdigits hvalue hrest hsuffix hpoint =>
      have hnumber := @readNumber_append _ [] _ hdigits (by simp) hrest fun _ => hpoint
      rw [numberEnd_plain hsuffix, integerKind_eq_ok.mpr ⟨hvalue, rfl⟩] at hnumber
      rw [readLexeme_of_isDigits hdigits htext]
      exact hnumber
    | @long digits _ hdigits hvalue =>
      have hpoint : NoFraction ('L' :: rest) := fun d cs he => by cases he
      have hnumber := @readNumber_append _ [] _ hdigits (by simp) (.head rfl) fun _ => hpoint
      rw [numberEnd_long, integerKind_eq_ok.mpr ⟨hvalue, rfl⟩] at hnumber
      rw [List.append_assoc] at htext
      rw [readLexeme_of_isDigits hdigits htext]
      exact hnumber
    | double hwhole hfraction hkind hrest hsuffix =>
      have hnumber := readNumber_append hwhole hfraction.2 hrest fun he => absurd he hfraction.1
      rw [numberEnd_double hfraction.1 hsuffix, hkind] at hnumber
      rw [List.append_assoc] at htext
      rw [readLexeme_of_isDigits hwhole htext]
      exact hnumber
    | single hwhole hfraction hkind =>
      have hpoint : NoFraction ('f' :: rest) := fun d cs he => by cases he
      have hnumber := readNumber_append hwhole hfraction (.head rfl) fun _ => hpoint
      rw [numberEnd, hkind] at hnumber
      rw [List.append_assoc, List.append_assoc] at htext
      rw [readLexeme_of_isDigits hwhole htext]
      exact hnumber
    | text hquoted =>
      rw [List.cons_append, List.append_assoc, List.singleton_append] at htext
      cases htext
      exact readLexeme_text hquoted rest
    | symbol hrest =>
      obtain ⟨c', cs', hhead, hname, hdigit, hquote, -⟩ := exists_head_spelling _
      obtain rfl : c' = c := by
        rw [hhead] at htext
        exact (List.cons.inj htext).1
      rw [readLexeme, if_neg (by simp [hname]), if_neg (by simp [hdigit]), if_neg hquote, ← htext,
        symbol?_append hrest]
      simp only [← String.length_toList, List.take_left, List.drop_left]

/-! ## What follows a lexeme -/

theorem isBlank_breaks (h : isBlank c = true) :
    isNamePart c = false ∧ c.isDigit = false ∧ (c == 'f') = false ∧ (c == 'L') = false ∧
      ∀ mark : Symbol, mark.extensions.contains c = false := by
  have hcases : c = ' ' ∨ c = '\t' ∨ c = '\r' ∨ c = '\n' := by simpa [isBlank, or_assoc] using h
  rcases hcases with rfl | rfl | rfl | rfl <;>
    exact ⟨by decide, by decide, by decide, by decide, fun mark => by cases mark <;> rfl⟩

theorem IsDigits.exists_head (h : IsDigits cs) :
    ∃ d ds, cs = d :: ds ∧ isBlank d = false ∧ d ≠ '/' := by
  cases cs with
  | nil => exact absurd rfl h.1
  | cons d ds =>
    have hd := h.2 d List.mem_cons_self
    refine ⟨d, ds, rfl, Bool.eq_false_iff.mpr fun hb => ?_, fun hslash => ?_⟩
    · exact absurd ((isBlank_breaks hb).2.1.symm.trans hd) Bool.false_ne_true
    · rw [hslash] at hd
      cases hd

theorem IsLexeme.exists_head (h : IsLexeme chars kind rest) :
    ∃ c cs, chars = c :: cs ∧ isBlank c = false ∧
      (c = '/' → cs = [] ∧ rest.head? ≠ some '/') := by
  cases h with
  | @word c cs _ hc =>
    have hpart := isNamePart_of_isNameStart hc
    refine ⟨c, cs, rfl, Bool.eq_false_iff.mpr fun hb => ?_, fun hslash => ?_⟩
    · exact absurd ((isBlank_breaks hb).1.symm.trans hpart) Bool.false_ne_true
    · rw [hslash] at hpart
      exact absurd hpart (by decide)
  | integer hdigits =>
    obtain ⟨d, ds, rfl, hd, hslash⟩ := hdigits.exists_head
    exact ⟨d, ds, rfl, hd, fun he => absurd he hslash⟩
  | long hdigits | double hdigits | single hdigits =>
    obtain ⟨d, ds, rfl, hd, hslash⟩ := hdigits.exists_head
    exact ⟨d, _, rfl, hd, fun he => absurd he hslash⟩
  | text => exact ⟨'"', _, rfl, by decide, fun he => absurd he (by decide)⟩
  | symbol hrest =>
    obtain ⟨c, cs, hhead, -, -, -, hblank, hslash⟩ := exists_head_spelling _
    refine ⟨c, cs, hhead, hblank, fun he => ⟨(hslash he).1, fun hcomment => ?_⟩⟩
    have hstop := hrest '/' hcomment
    rw [(hslash he).2] at hstop
    cases hstop

theorem IsLexeme.beginsToken (h : IsLexeme chars kind rest) : BeginsToken (chars ++ rest) := by
  obtain ⟨c, cs, rfl, hblank, hslash⟩ := h.exists_head
  refine ⟨c, cs ++ rest, rfl, hblank, fun hcomment => ?_⟩
  obtain ⟨rfl, hrest⟩ := hslash hcomment.1
  exact hrest hcomment.2

/-- A second continuation of a lexeme that does not make it longer: the first one cut short, one that
agrees with it on two characters, or a blank. -/
def Undisturbed (rest rest' : List Char) : Prop :=
  rest'.take 2 <+: rest ∨ ∃ c ∈ rest'.head?, isBlank c = true

theorem Undisturbed.nil (rest : List Char) : Undisturbed rest [] := .inl List.nil_prefix

theorem Undisturbed.blank (h : isBlank c = true) (rest cs : List Char) :
    Undisturbed rest (c :: cs) := .inr ⟨c, rfl, h⟩

theorem Undisturbed.of_start (h : more <+: rest) : Undisturbed rest more :=
  .inl (.trans ⟨_, List.take_append_drop 2 more⟩ h)

theorem Undisturbed.stops (h : Undisturbed rest rest') (hp : ∀ c, isBlank c = true → p c = false)
    (hrest : Stops p rest) : Stops p rest' := by
  intro c hc
  obtain ⟨cs, rfl⟩ := List.head?_eq_some_iff.mp hc
  rcases h with ⟨more, rfl⟩ | ⟨c', hc', hblank⟩
  · exact hrest c (by simp)
  · cases hc'
    exact hp c hblank

theorem Undisturbed.noFraction (h : Undisturbed rest rest') (hrest : NoFraction rest) :
    NoFraction rest' := by
  rintro d cs rfl
  rcases h with ⟨more, rfl⟩ | ⟨c', hc', hblank⟩
  · exact hrest d more rfl
  · cases hc'
    cases hblank

theorem IsLexeme.follow (h : IsLexeme chars kind rest) (hf : Undisturbed rest rest') :
    IsLexeme chars kind rest' := by
  cases h with
  | word hc hcs hrest => exact .word hc hcs (hf.stops (fun _ hb => (isBlank_breaks hb).1) hrest)
  | integer hdigits hvalue hrest hsuffix hpoint =>
    refine .integer hdigits hvalue (hf.stops (fun _ hb => (isBlank_breaks hb).2.1) hrest)
      (hf.stops (fun c hb => ?_) hsuffix) (hf.noFraction hpoint)
    obtain ⟨-, -, hsingle, hlong, -⟩ := isBlank_breaks hb
    simp only [hsingle, hlong, Bool.or_self]
  | long hdigits hvalue => exact .long hdigits hvalue
  | double hwhole hfraction hkind hrest hsuffix =>
    exact .double hwhole hfraction hkind (hf.stops (fun _ hb => (isBlank_breaks hb).2.1) hrest)
      (hf.stops (fun _ hb => (isBlank_breaks hb).2.2.1) hsuffix)
  | single hwhole hfraction hkind => exact .single hwhole hfraction hkind
  | text hquoted => exact .text hquoted
  | symbol hrest => exact .symbol (hf.stops (fun _ hb => (isBlank_breaks hb).2.2.2.2 _) hrest)

end Token

end StructLang
