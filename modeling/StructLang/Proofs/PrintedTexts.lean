import StructLang.Flat.Print
import StructLang.Ssa.Print

/-!
# Texts in printed code

How an assembler reads the text constants of both kinds of code, and that it finds the bytes of each
text there, closed by one zero byte. SSA code spells single bytes and flat code whole characters.
-/

namespace StructLang

def Text.digitValue? (base : Nat) (c : Char) : Option Nat :=
  ("0123456789ABCDEF".toList.take base).idxOf? c.toUpper

/-- Whether some double quote has no backslash in front that escapes it. -/
def Text.hasBareQuote : List Char → Bool
  | [] => false
  | '\\' :: _ :: rest => hasBareQuote rest
  | c :: rest => c == '"' || hasBareQuote rest

open Text

theorem Utf8.encode_eq (s : String) : encode s = s.toList.flatMap String.utf8EncodeChar := by
  change s.toByteArray.data.toList = _
  rw [← String.utf8Encode_toList]
  simp [List.utf8Encode]

theorem Text.toList_padZeros (width : Nat) (s : String) :
    (padZeros width s).toList = List.replicate (width - s.length) '0' ++ s.toList := by
  simp [padZeros]

theorem Text.hasBareQuote_cons {c : Char} (hslash : c ≠ '\\') (hquote : c ≠ '"') (rest : List Char) :
    hasBareQuote (c :: rest) = hasBareQuote rest := by
  rw [hasBareQuote.eq_def]
  split <;> simp_all

theorem Text.ne_of_digit (hd : digitValue? base d = none) (hc : digitValue? base c = some v) :
    d ≠ c := by
  rintro rfl
  cases hd.symm.trans hc

theorem utf8EncodeChar_ascii {c : Char} (h : c.toNat < 128) :
    String.utf8EncodeChar c = [UInt8.ofNat c.toNat] := by
  simp [String.utf8EncodeChar, Nat.le_of_lt_succ h]

namespace Ssa

/-- The bytes between the quotes of a constant: a backslash and two hexadecimal digits are one byte, any
other character is itself. -/
def readBytes : List Char → List UInt8
  | [] => []
  | '\\' :: a :: b :: rest =>
    match digitValue? 16 a, digitValue? 16 b with
    | some high, some low => UInt8.ofNat (16 * high + low) :: readBytes rest
    | _, _ => String.utf8EncodeChar '\\' ++ readBytes (a :: b :: rest)
  | c :: rest => String.utf8EncodeChar c ++ readBytes rest

theorem readBytes_cons {c : Char} (h : c ≠ '\\') (rest : List Char) :
    readBytes (c :: rest) = String.utf8EncodeChar c ++ readBytes rest := by
  rw [readBytes.eq_def]
  split
  · contradiction
  · next heq => exact absurd (List.cons.inj heq).1 h
  · next heq =>
    cases heq
    rfl

theorem exists_hex (b : UInt8) : ∃ x y, (upperHexPadded 2 b.toNat).toList = [x, y] ∧
    digitValue? 16 x = some (b.toNat / 16) ∧ digitValue? 16 y = some (b.toNat % 16) := by
  have hdigits : ∀ n < 256, (List.replicate (2 - (Nat.toDigits 16 n).length) '0' ++
      (Nat.toDigits 16 n).map Char.toUpper).map (digitValue? 16) =
        [some (n / 16), some (n % 16)] := by
    decide +kernel
  have h := hdigits b.toNat b.toNat_lt
  rw [upperHexPadded, toList_padZeros]
  simp only [String.length_ofList, List.length_map, String.toList_ofList]
  obtain ⟨x, ys, heq, hx, h⟩ := List.map_eq_cons_iff.mp h
  obtain ⟨y, zs, rfl, hy, h⟩ := List.map_eq_cons_iff.mp h
  cases List.map_eq_nil_iff.mp h
  exact ⟨x, y, heq, hx, hy⟩

/-- A byte is spelled by its digits or by the character that it is, never with a quote or a line
break. -/
theorem readBytes_byteText (b : UInt8) (rest : List Char) :
    readBytes ((byteText b).toList ++ rest) = b :: readBytes rest ∧
      '"' ∉ (byteText b).toList ∧ '\n' ∉ (byteText b).toList := by
  unfold byteText
  split
  · obtain ⟨x, y, heq, hx, hy⟩ := exists_hex b
    have hvalue : 16 * (b.toNat / 16) + b.toNat % 16 = b.toNat := Nat.div_add_mod ..
    have hquote : digitValue? 16 '"' = none := by decide +kernel
    have hbreak : digitValue? 16 '\n' = none := by decide +kernel
    simp only [String.toList_append, heq]
    exact ⟨by simp [readBytes, hx, hy, hvalue], by simp [ne_of_digit hquote hx, ne_of_digit hquote hy],
      by simp [ne_of_digit hbreak hx, ne_of_digit hbreak hy]⟩
  · next hplain =>
    simp only [Bool.or_eq_true, decide_eq_true_eq, not_or, Nat.not_lt] at hplain
    obtain ⟨⟨⟨hquote, hslash⟩, hlow⟩, hhigh⟩ := hplain
    have hchar : (Char.ofNat b.toNat).toNat = b.toNat := by
      have hascii : ∀ n < 128, (Char.ofNat n).toNat = n := by decide
      exact hascii b.toNat (by omega)
    have hne : ∀ c : Char, c.toNat ≠ b.toNat → c ≠ Char.ofNat b.toNat := by
      rintro c hc rfl
      exact hc hchar
    rw [String.toList_singleton, List.singleton_append,
      readBytes_cons (hne '\\' (Ne.symm hslash)).symm, utf8EncodeChar_ascii (by omega),
      hchar, UInt8.ofNat_toNat]
    refine ⟨rfl, ?_, ?_⟩ <;> rw [List.mem_singleton]
    · exact hne '"' (Ne.symm hquote)
    · exact hne '\n' (Nat.ne_of_lt (Nat.lt_of_lt_of_le (by decide) hlow))

theorem readBytes_bytesText (s : String) (rest : List Char) :
    readBytes ((bytesText s).toList ++ rest) = Utf8.encode s ++ readBytes rest ∧
      '"' ∉ (bytesText s).toList ∧ '\n' ∉ (bytesText s).toList := by
  rw [bytesText, String.toList_join]
  induction Utf8.encode s with
  | nil => simp
  | cons b bytes ih =>
    obtain ⟨hread, hquote, hbreak⟩ := readBytes_byteText b
      (((bytes.map byteText).flatMap String.toList) ++ rest)
    simp only [List.map_cons, List.flatMap_cons, List.append_assoc, List.mem_append, not_or]
    exact ⟨by rw [hread, ih.1, List.cons_append], ⟨hquote, ih.2.1⟩, hbreak, ih.2.2⟩

end Ssa

namespace Flat

/-- The bytes up to the closing quote, and what follows it. A backslash escapes itself, a quote, one of
three letters for control characters, or three octal digits. -/
def readQuoted : List Char → Option (List UInt8 × List Char)
  | [] | '\n' :: _ => none
  | '"' :: rest => some ([], rest)
  | '\\' :: '\\' :: rest => put [0x5c] (readQuoted rest)
  | '\\' :: '"' :: rest => put [0x22] (readQuoted rest)
  | '\\' :: 'n' :: rest => put [0x0a] (readQuoted rest)
  | '\\' :: 'r' :: rest => put [0x0d] (readQuoted rest)
  | '\\' :: 't' :: rest => put [0x09] (readQuoted rest)
  | '\\' :: a :: b :: c :: rest =>
    match digitValue? 8 a, digitValue? 8 b, digitValue? 8 c with
    | some x, some y, some z => put [UInt8.ofNat (64 * x + 8 * y + z)] (readQuoted rest)
    | _, _, _ => none
  | '\\' :: _ => none
  | c :: rest => put (String.utf8EncodeChar c) (readQuoted rest)
where
  /-- Bytes in front of those that were read. -/
  put (bytes : List UInt8) (r : Option (List UInt8 × List Char)) : Option (List UInt8 × List Char) :=
    r.map fun p => (bytes ++ p.1, p.2)

theorem exists_octal (h : n < 32) : ∃ x y, (octal n).toList = ['0', x, y] ∧
    digitValue? 8 x = some (n / 8) ∧ digitValue? 8 y = some (n % 8) := by
  have hdigits : ∀ n < 32,
      let digits := List.replicate (3 - (Nat.toDigits 8 n).length) '0' ++ Nat.toDigits 8 n
      digits.head? = some '0' ∧ digits.tail.map (digitValue? 8) = [some (n / 8), some (n % 8)] := by
    decide +kernel
  obtain ⟨hzero, h⟩ := hdigits n h
  obtain ⟨digits, heq⟩ := List.head?_eq_some_iff.mp hzero
  rw [heq] at h
  obtain ⟨x, ys, rfl, hx, h⟩ := List.map_eq_cons_iff.mp h
  obtain ⟨y, zs, rfl, hy, h⟩ := List.map_eq_cons_iff.mp h
  cases List.map_eq_nil_iff.mp h
  refine ⟨x, y, ?_, hx, hy⟩
  rw [octal, toList_padZeros]
  simpa using heq

/-- Each character is read back from its spelling, in which no quote is bare and no line breaks. -/
theorem readQuoted_charText (c : Char) (rest : List Char) :
    readQuoted ((charText c).toList ++ rest) =
        readQuoted.put (String.utf8EncodeChar c) (readQuoted rest) ∧
      hasBareQuote ((charText c).toList ++ rest) = hasBareQuote rest ∧
      '\n' ∉ (charText c).toList := by
  unfold charText
  split
  iterate 5 exact ⟨rfl, rfl, by decide⟩
  · next hslash hquote hbreak _ _ =>
    split
    · next hlow =>
      obtain ⟨x, y, heq, hx, hy⟩ := exists_octal hlow
      have hascii := utf8EncodeChar_ascii (Nat.lt_trans hlow (by decide : 32 < 128))
      have hvalue : 8 * (c.toNat / 8) + c.toNat % 8 = c.toNat := Nat.div_add_mod ..
      have hzero : digitValue? 8 '0' = some 0 := by decide +kernel
      have hne : ∀ d, digitValue? 8 d = none → d ≠ x ∧ d ≠ y := fun d hd =>
        ⟨ne_of_digit hd hx, ne_of_digit hd hy⟩
      have hslash := hne '\\' (by decide +kernel)
      have hquote := hne '"' (by decide +kernel)
      have hbreak := hne '\n' (by decide +kernel)
      simp only [String.toList_append, heq]
      refine ⟨?_, ?_, by simp [hbreak]⟩
      · simp [readQuoted, hx, hy, hvalue, hascii, hzero]
      · change hasBareQuote (x :: y :: rest) = _
        rw [hasBareQuote_cons hslash.1.symm hquote.1.symm, hasBareQuote_cons hslash.2.symm hquote.2.symm]
    · rw [String.toList_singleton, List.singleton_append, List.mem_singleton]
      refine ⟨?_, hasBareQuote_cons hslash hquote rest, Ne.symm hbreak⟩
      rw [readQuoted.eq_def]
      split <;> simp_all

theorem readQuoted_quotedText (s : String) (rest : List Char) :
    readQuoted ((quotedText s).toList ++ '"' :: rest) = some (Utf8.encode s, rest) ∧
      hasBareQuote (quotedText s).toList = false ∧ '\n' ∉ (quotedText s).toList := by
  rw [quotedText, String.toList_join, Utf8.encode_eq]
  induction s.toList with
  | nil => exact ⟨rfl, rfl, List.not_mem_nil⟩
  | cons c cs ih =>
    have hc := readQuoted_charText c
    simp only [List.map_cons, List.flatMap_cons, List.append_assoc, List.mem_append, not_or]
    rw [(hc _).1, (hc _).2.1, ih.1]
    exact ⟨rfl, ih.2.1, (hc []).2.2, ih.2.2⟩

def readItem : List Char → Option (List UInt8 × List Char)
  | 'b' :: ' ' :: '0' :: rest => some ([0], rest)
  | 'b' :: ' ' :: '"' :: rest => readQuoted rest
  | _ => none

/-- The items of a datum spell bytes, up to the closing brace and the end of the line. -/
inductive Items : List Char → List UInt8 → Prop where
  | last (h : readItem cs = some (bytes, " \x7d\n".toList)) : Items cs bytes
  | more (h : readItem cs = some (bytes, ',' :: ' ' :: rest)) (hrest : Items rest bytes') :
      Items cs (bytes ++ bytes')

end Flat

/-- The text constants of both kinds of code spell the bytes of the text and one zero byte behind them:
the count that SSA code prints is the number of these bytes, and between the quotes of either kind
there is neither a bare quote nor a line break. -/
theorem printed_texts_spell (name value : String) :
    (∃ body, Ssa.Constant.text ⟨name, value⟩ =
        s!"@{name} = private unnamed_addr constant [{(Ssa.readBytes body).length} x i8] " ++
          s!"c\"{String.ofList body}\", align 1\n" ∧
      Ssa.readBytes body = Utf8.encode value ++ [0] ∧ '"' ∉ body ∧ '\n' ∉ body) ∧
    ∃ items, Flat.Datum.text ⟨name, value⟩ = s!"data ${name} = \x7b " ++ String.ofList items ∧
      Flat.Items items (Utf8.encode value ++ [0]) ∧
      (value ≠ "" → ∃ body, items = "b \"".toList ++ body ++ "\", b 0 \x7d\n".toList ∧
        hasBareQuote body = false ∧ '\n' ∉ body) := by
  constructor
  · obtain ⟨hread, hquote, hbreak⟩ := Ssa.readBytes_bytesText value "\\00".toList
    have hzero : Ssa.readBytes "\\00".toList = [0] := by decide +kernel
    rw [hzero] at hread
    refine ⟨(Ssa.bytesText value).toList ++ "\\00".toList, ?_, hread, ?_, ?_⟩
    · rw [hread, ← String.toList_inj]
      simp [Ssa.Constant.text, ToString.toString]
    · simp [hquote]
    · simp [hbreak]
  · by_cases hempty : value = ""
    · subst hempty
      refine ⟨"b 0 \x7d\n".toList, ?_, .last rfl, (absurd rfl ·)⟩
      rw [← String.toList_inj]
      simp [Flat.Datum.text, ToString.toString]
    · obtain ⟨hread, hquote, hbreak⟩ :=
        Flat.readQuoted_quotedText value ", b 0 \x7d\n".toList
      have hitem : Flat.readItem
          ("b \"".toList ++ (Flat.quotedText value).toList ++ "\", b 0 \x7d\n".toList) =
            some (Utf8.encode value, ',' :: ' ' :: "b 0 \x7d\n".toList) := by
        simpa [Flat.readItem] using hread
      refine ⟨_, ?_, .more hitem (.last rfl), fun _ => ⟨_, rfl, hquote, hbreak⟩⟩
      rw [← String.toList_inj]
      simp [Flat.Datum.text, hempty, ToString.toString]

end StructLang
