import StructLang.Diagnostic
import StructLang.Proofs.Partition

/-!
# Places in excerpts

A location addresses its byte: the lines in front of it, each with its break, and the characters left of
the column are what precedes that byte (`Location.At`). The excerpt of a report shows this line with a
run of carets below. The run starts under the first character of the span, but it counts the bytes of the
whole span and not the columns of what the line shows of it.
-/

namespace StructLang

open Text
open Token (byteLength byteLength_append byteLength_toList byteLength_pos)

def Text.lines (text : String) : List (List Char) := text.toList.splitOn '\n'

/-- The location stands at a byte of the text. -/
structure Location.At (text : String) (offset : Nat) (p : Location) : Prop where
  line_pos : 0 < p.line
  column_pos : 0 < p.column
  line : (Text.lines text)[p.line - 1]? = some p.text.toList
  column_le : p.column - 1 ≤ p.text.length
  offset : offset = byteLength (((Text.lines text).take (p.line - 1)).flatMap (· ++ ['\n'])) +
    byteLength (p.text.toList.take (p.column - 1))

def Location.Precedes (p q : Location) : Prop :=
  p.line < q.line ∨ p.line = q.line ∧ p.column < q.column

namespace Text

/-! ## Lines -/

theorem lastLine_append (h : '\n' ∉ ds) (cs : List Char) : lastLine (cs ++ ds) = lastLine cs ++ ds := by
  have hall : ∀ c ∈ ds.reverse, decide (c ≠ '\n') = true := by
    intro c hc
    simp only [decide_eq_true_eq]
    rintro rfl
    exact h (List.mem_reverse.mp hc)
  rw [lastLine, List.reverse_append, List.takeWhile_append_of_pos hall]
  simp [lastLine]

theorem lastLine_of_notMem (h : '\n' ∉ cs) : lastLine cs = cs := lastLine_append h []

theorem lastLine_append_of_mem (h : '\n' ∈ ds) (cs : List Char) :
    lastLine (cs ++ ds) = lastLine ds := by
  rw [lastLine, List.reverse_append, List.takeWhile_append, if_neg, lastLine]
  intro hlength
  have hall := (List.takeWhile_prefix _).eq_of_length hlength
  simpa using List.takeWhile_eq_self_iff.mp hall '\n' (List.mem_reverse.mpr h)

theorem head_splitOn (cs : List Char) :
    (cs.splitOn '\n')[0]? = some (cs.takeWhile (· ≠ '\n')) := by
  induction cs with
  | nil => rfl
  | cons c cs ih =>
    rw [List.splitOn_cons_eq_if_modifyHead]
    by_cases hc : c = '\n'
    · simp [hc]
    · simpa [hc, List.getElem?_modifyHead] using ih

/-- A text is cut inside a line: the lines in front of the cut and the start of that line are what
precedes it. -/
theorem splitOn_append (before after : List Char) :
    ((before ++ after).splitOn '\n')[before.count '\n']? =
        some (lastLine before ++ after.takeWhile (· ≠ '\n')) ∧
      (((before ++ after).splitOn '\n').take (before.count '\n')).flatMap (· ++ ['\n']) ++
        lastLine before = before := by
  induction before with
  | nil => exact ⟨head_splitOn after, rfl⟩
  | cons c before ih =>
    rw [List.cons_append, List.splitOn_cons_eq_if_modifyHead, List.count_cons]
    by_cases hc : c = '\n'
    · subst hc
      have hlast : lastLine ('\n' :: before) = lastLine before := by
        by_cases hmem : '\n' ∈ before
        · exact lastLine_append_of_mem hmem ['\n']
        · exact (lastLine_append hmem ['\n']).trans (lastLine_append hmem []).symm
      simpa [hlast] using ih
    · cases hlines : (before ++ after).splitOn '\n' with
      | nil => exact absurd hlines (List.splitOn_ne_nil _ _)
      | cons first others =>
        rw [hlines] at ih
        by_cases hmem : '\n' ∈ before
        · obtain ⟨n, hn⟩ := Nat.exists_eq_succ_of_ne_zero (Nat.ne_of_gt (List.count_pos_iff.mpr hmem))
          have hlast : lastLine (c :: before) = lastLine before := lastLine_append_of_mem hmem [c]
          simpa [hc, hn, hlast] using ih
        · have hlast : lastLine (c :: before) = c :: lastLine before := by
            have hcons : '\n' ∉ c :: before := by simp [Ne.symm hc, hmem]
            rw [lastLine_of_notMem hcons, lastLine_of_notMem hmem]
          simpa [hc, List.count_eq_zero.mpr hmem, hlast] using ih

/-! ## Locations -/

theorem locate_eq (htext : text.toList = before ++ after)
    (hn : min n text.utf8ByteSize = byteLength before) :
    locate text n = ⟨before.count '\n' + 1, (lastLine before).length + 1,
      String.ofList (lastLine before ++ after.takeWhile (· ≠ '\n'))⟩ := by
  have hsize : text.utf8ByteSize = byteLength before + byteLength after := by
    rw [← byteLength_toList, htext, byteLength_append]
  have hcut : cutAtByte n text.toList = (before, after) := by
    rw [htext, cutAtByte_append (by omega)]
    by_cases hafter : after = []
    · simp [hafter, cutAtByte]
    · have hpos := byteLength_pos hafter
      rw [show n - byteLength before = 0 by omega, cutAtByte_zero, List.append_nil]
  rw [locate, hcut]

theorem locate_at (htext : text.toList = before ++ after)
    (hn : min n text.utf8ByteSize = byteLength before) :
    (locate text n).At text (byteLength before) := by
  obtain ⟨hline, hbefore⟩ := splitOn_append before after
  rw [← htext] at hline hbefore
  rw [locate_eq htext hn]
  refine ⟨Nat.succ_pos _, Nat.succ_pos _, by simpa [lines] using hline, by simp, ?_⟩
  have hsize := congrArg byteLength hbefore
  rw [byteLength_append] at hsize
  simpa [lines] using hsize.symm

theorem exists_cut (h : String.Pos.Raw.IsValid text ⟨m⟩) (h' : String.Pos.Raw.IsValid text ⟨n⟩)
    (hle : m ≤ n) : ∃ before part after, text.toList = before ++ (part ++ after) ∧
      byteLength before = m ∧ byteLength (before ++ part) = n := by
  obtain ⟨before, after, rfl, hm⟩ := String.Pos.Raw.isValid_iff_exists_append.mp h
  obtain ⟨before', after', heq, hn⟩ := String.Pos.Raw.isValid_iff_exists_append.mp h'
  obtain rfl : m = before.utf8ByteSize := congrArg String.Pos.Raw.byteIdx hm
  obtain rfl : n = before'.utf8ByteSize := congrArg String.Pos.Raw.byteIdx hn
  have heq := congrArg String.toList heq
  simp only [String.toList_append, ← byteLength_toList] at heq hle ⊢
  rcases List.append_eq_append_iff.mp heq with ⟨part, hpart, hafter⟩ | ⟨part, hpart, hafter⟩
  · exact ⟨_, part, _, by rw [hafter], rfl, by rw [hpart]⟩
  · obtain rfl : part = [] := by
      by_contra hne
      have hpos := byteLength_pos hne
      rw [hpart, byteLength_append] at hle
      omega
    exact ⟨_, [], _, rfl, rfl, by rw [hpart, List.append_nil, List.append_nil]⟩

theorem locate_precedes (h : String.Pos.Raw.IsValid text ⟨min m text.utf8ByteSize⟩)
    (h' : String.Pos.Raw.IsValid text ⟨min n text.utf8ByteSize⟩)
    (hle : min m text.utf8ByteSize ≤ min n text.utf8ByteSize) :
    ¬ (locate text n).Precedes (locate text m) ∧
      (min m text.utf8ByteSize < min n text.utf8ByteSize →
        (locate text m).Precedes (locate text n)) := by
  obtain ⟨before, part, after, htext, hbefore, hpart⟩ := exists_cut h h' hle
  rw [← hbefore, ← hpart, locate_eq htext hbefore.symm,
    locate_eq (by rw [htext, List.append_assoc]) hpart.symm]
  simp only [Location.Precedes, List.count_append, byteLength_append]
  by_cases hbreak : '\n' ∈ part
  · have hcount := List.count_pos_iff.mpr hbreak
    exact ⟨by omega, fun _ => .inl (by omega)⟩
  · rw [List.count_eq_zero.mpr hbreak, lastLine_append hbreak, List.length_append]
    refine ⟨by omega, fun hlt => .inr ⟨rfl, ?_⟩⟩
    have hlength : 0 < part.length := by
      rw [List.length_pos_iff]
      rintro rfl
      simp at hlt
    omega

theorem locate_at_byte (h : String.Pos.Raw.IsValid text ⟨min n text.utf8ByteSize⟩) :
    (locate text n).At text (min n text.utf8ByteSize) := by
  obtain ⟨before, part, after, htext, hbefore, -⟩ := exists_cut h h (Nat.le_refl _)
  rw [← hbefore]
  exact locate_at htext hbefore.symm

/-- A piece of text covers the start of its line and what lies beyond the line, or no more than a start
of the line. -/
theorem exists_part (covered after : List Char) : ∃ part right beyond,
    (covered ++ after).takeWhile (· ≠ '\n') = part ++ right ∧ covered = part ++ beyond ∧
      (beyond = [] ∨ right = [] ∧ beyond.head? = some '\n') := by
  by_cases hbreak : '\n' ∈ covered
  · obtain ⟨part, beyond, rfl, hpart⟩ := List.eq_append_cons_of_mem hbreak
    refine ⟨part, [], '\n' :: beyond, ?_, rfl, .inr ⟨rfl, rfl⟩⟩
    rw [List.append_assoc, List.takeWhile_append_of_pos fun c hc =>
      decide_eq_true (ne_of_mem_of_not_mem hc hpart)]
    simp
  · exact ⟨covered, after.takeWhile (· ≠ '\n'), [],
      List.takeWhile_append_of_pos fun c hc => decide_eq_true (ne_of_mem_of_not_mem hc hbreak),
      (List.append_nil _).symm, .inl rfl⟩

end Text

/-- Line and column address their byte in the text, an offset past the end that of the end, and they are
ordered as the bytes are. -/
theorem locate?_inverts_addresses {sources : Sources} {a b : Span} {file : SourceFile}
    (hfile : sources.files[a.file]? = some file) (hsame : a.file = b.file)
    (ha : String.Pos.Raw.IsValid file.text ⟨min a.start file.text.utf8ByteSize⟩)
    (hb : String.Pos.Raw.IsValid file.text ⟨min b.start file.text.utf8ByteSize⟩) :
    ∃ p q, sources.locate? a = some (file, p) ∧ sources.locate? b = some (file, q) ∧
      p.At file.text (min a.start file.text.utf8ByteSize) ∧
      q.At file.text (min b.start file.text.utf8ByteSize) ∧
      (min a.start file.text.utf8ByteSize < min b.start file.text.utf8ByteSize ↔ p.Precedes q) := by
  refine ⟨locate file.text a.start, locate file.text b.start, ?_, ?_, locate_at_byte ha,
    locate_at_byte hb, fun h => (locate_precedes ha hb (Nat.le_of_lt h)).2 h, fun h => ?_⟩
  · rw [Sources.locate?, hfile, Option.map_some]
  · rw [Sources.locate?, ← hsame, hfile, Option.map_some]
  · by_contra hle
    exact (locate_precedes hb ha (Nat.le_of_not_lt hle)).1 h

theorem locate?_inverts_addresses_break :
    let sources : Sources := ⟨[⟨"a", "é\n\nb"⟩]⟩
    String.Pos.Raw.IsValid "é\n\nb" ⟨2⟩ ∧ String.Pos.Raw.IsValid "é\n\nb" ⟨5⟩ ∧
      ∃ p q, sources.locate? ⟨2, 3, 0⟩ = some (⟨"a", "é\n\nb"⟩, p) ∧
        sources.locate? ⟨9, 9, 0⟩ = some (⟨"a", "é\n\nb"⟩, q) ∧ p.At "é\n\nb" 2 ∧ q.At "é\n\nb" 5 ∧
        (2 < 5 ↔ p.Precedes q) :=
  ⟨by decide, by decide, locate?_inverts_addresses rfl rfl (by decide) (by decide)⟩

/-! ## Carets -/

namespace Diagnostic

theorem expandTabs_append (cs ds : List Char) :
    expandTabs (cs ++ ds) = expandTabs cs ++ expandTabs ds := by
  simp [expandTabs, String.join_append]

theorem length_expandTabs (cs : List Char) :
    (expandTabs cs).length = cs.length + 3 * cs.count '\t' := by
  induction cs with
  | nil => rfl
  | cons c cs ih =>
    rw [← List.singleton_append, expandTabs_append, String.length_append, ih, List.count_append,
      List.length_append]
    have hone : (expandTabs [c]).length = 1 + 3 * [c].count '\t' := by
      by_cases hc : c = '\t'
      · subst hc
        rfl
      · simp [expandTabs, hc]
    rw [hone, List.length_singleton]
    omega

theorem width_eq (cs : List Char) : width cs = (expandTabs cs).length := by
  have hfold (n : Nat) : cs.foldl (fun n c => n + if c = '\t' then 4 else 1) n =
      n + (cs.length + 3 * cs.count '\t') := by
    induction cs generalizing n with
    | nil => rfl
    | cons c cs ih =>
      rw [List.foldl_cons, ih]
      by_cases hc : c = '\t' <;> simp [hc] <;> omega
  rw [width, hfold, length_expandTabs, Nat.zero_add]

theorem carets_eq_iff (part beyond : List Char) :
    max (byteLength (part ++ beyond)) 1 = max (expandTabs part).length 1 ↔
      byteLength (part ++ beyond) = part.length + 3 * part.count '\t' ∨
        part = [] ∧ byteLength beyond ≤ 1 := by
  rw [length_expandTabs]
  by_cases hpart : part = []
  · simp [hpart]
    omega
  · have hpos := byteLength_pos hpart
    have hlength := List.length_pos_iff.mpr hpart
    simp only [hpart, false_and, or_false, byteLength_append]
    omega

/-- The report shows the line of a place in its text, cut into what is left of the span, the part of the
span on this line and what is right of it, with carets for all bytes of the span. -/
structure Shows (d : Diagnostic) (sources : Sources) (span : Span) (file : SourceFile) (place : Location)
    (left part right beyond : List Char) : Prop where
  locates : sources.locate? span = some (file, place)
  atStart : place.At file.text span.start
  shown : place.text = String.ofList (left ++ part ++ right)
  firstColumn : place.column = left.length + 1
  covered : (between file.text span.start span.stop).toList = part ++ beyond
  wholeLine : beyond = [] ∨ right = [] ∧ beyond.head? = some '\n'
  human : d.human sources =
    let number := toString place.line
    let gutter := fill number.length ' '
    let pad := fill (expandTabs left).length ' '
    let carets := fill (max (byteLength (part ++ beyond)) 1) '^'
    s!"{d.level.name}: {d.message}\n{gutter}--> {file.path}:{number}:{place.column}\n{gutter} |\n" ++
      s!"{number} | {expandTabs left}{expandTabs part}{expandTabs right}\n" ++
      s!"{gutter} | {pad}{carets} {d.message}\n"

end Diagnostic

/-- The carets of a report start below the part of the span that its line shows, but there are as many as
the span has bytes. That is as many as the part has columns exactly when the bytes that are no
characters of the part make up for its tabs, or when the span has at most the break of the line. -/
theorem human_underlines_bytes {sources : Sources} {d : Diagnostic} {span : Span} {file : SourceFile}
    (hspan : d.span = some span) (hfile : sources.files[span.file]? = some file)
    (hstart : String.Pos.Raw.IsValid file.text ⟨span.start⟩)
    (hstop : String.Pos.Raw.IsValid file.text ⟨span.stop⟩) :
    ∃ place left part right beyond, d.Shows sources span file place left part right beyond ∧
      (max (byteLength (part ++ beyond)) 1 = max (Diagnostic.expandTabs part).length 1 ↔
        byteLength (part ++ beyond) = part.length + 3 * part.count '\t' ∨
          part = [] ∧ byteLength beyond ≤ 1) := by
  have hvalid : String.Pos.Raw.IsValid file.text ⟨max span.start span.stop⟩ := by
    rcases Nat.le_total span.start span.stop with hle | hle
    · rwa [Nat.max_eq_right hle]
    · rwa [Nat.max_eq_left hle]
  obtain ⟨before, covered, after, htext, hbefore, hcovered⟩ :=
    exists_cut hstart hvalid (Nat.le_max_left ..)
  rw [byteLength_append] at hcovered
  have hlength : span.length = byteLength covered := by
    rw [Span.length]
    omega
  have hsize : file.text.utf8ByteSize = byteLength before + byteLength (covered ++ after) := by
    rw [← byteLength_toList, htext, byteLength_append]
  have hstart : min span.start file.text.utf8ByteSize = byteLength before := by omega
  have hbetween : between file.text span.start span.stop = String.ofList covered := by
    have hleft : Left file.text span.start (covered ++ after) := ⟨before, htext, hbefore⟩
    rw [← hleft.between, ← hlength, Span.length, between, between, Nat.add_sub_cancel_left]
  have hlocate : sources.locate? span = some (file, locate file.text span.start) := by
    rw [Sources.locate?, hfile, Option.map_some]
  obtain ⟨part, right, beyond, hline, rfl, hbeyond⟩ := exists_part covered after
  have hat := locate_at htext hstart
  have hplace := locate_eq htext hstart
  rw [hbefore] at hat
  rw [hline] at hplace
  refine ⟨locate file.text span.start, lastLine before, part, right, beyond,
    ⟨hlocate, hat, ?_, ?_, ?_, hbeyond, ?_⟩, Diagnostic.carets_eq_iff part beyond⟩
  · rw [hplace, List.append_assoc]
  · rw [hplace]
  · rw [hbetween, String.toList_ofList]
  · rw [← String.toList_inj, Diagnostic.human, hspan]
    simp only [hlocate]
    simp [Diagnostic.excerpt, hplace, hlength, Diagnostic.width_eq, Diagnostic.expandTabs_append,
      ToString.toString]

theorem human_underlines_bytes_lines :
    let sources : Sources := ⟨[⟨"a.spz", "ab\ncd"⟩]⟩
    String.Pos.Raw.IsValid "ab\ncd" ⟨0⟩ ∧ String.Pos.Raw.IsValid "ab\ncd" ⟨5⟩ ∧
      ∃ place left part right beyond,
        Diagnostic.Shows ⟨.error, "m", some ⟨0, 5, 0⟩⟩ sources ⟨0, 5, 0⟩ ⟨"a.spz", "ab\ncd"⟩ place left part
          right beyond ∧
        (max (byteLength (part ++ beyond)) 1 = max (Diagnostic.expandTabs part).length 1 ↔
          byteLength (part ++ beyond) = part.length + 3 * part.count '\t' ∨
            part = [] ∧ byteLength beyond ≤ 1) :=
  ⟨by decide, by decide, human_underlines_bytes rfl rfl (by decide) (by decide)⟩

end StructLang
