import Mathlib.Data.List.Forall2
import StructLang.Proofs.Flat.Bytes
import StructLang.Proofs.PrintedTexts
import StructLang.Ssa.Run

/-!
# Arguments of formats

The flat machine cuts a format at its percent signs to find out which arguments are texts. It finds the
conversions of the format in this way if behind each escaped percent sign comes another percent sign or
the end: text in that place is taken for a conversion.
-/

namespace StructLang

namespace Printf

/-- The conversions of a format that take an argument. -/
def conversions : State → List Char → List Char
  | _, [] => []
  | .plain, '%' :: rest => conversions .conversion rest
  | .plain, _ :: rest => conversions .plain rest
  | .conversion, 'l' :: rest => conversions .conversion rest
  | .conversion, '%' :: rest => conversions .plain rest
  | .conversion, c :: rest => c :: conversions .plain rest

/-- A format whose escapes have no modifiers, and no text before the next percent sign. -/
inductive Tight : List Char → Prop where
  | plain (htext : '%' ∉ text) : Tight text
  | conversion (htext : '%' ∉ text) (hlong : ∀ l ∈ long, l = 'l') (hc : c ≠ 'l' ∧ c ≠ '%')
      (hrest : Tight rest) : Tight (text ++ '%' :: (long ++ c :: rest))
  | escape (htext : '%' ∉ text) (hrest : Tight rest) (hnext : rest.head?.all (· == '%')) :
      Tight (text ++ '%' :: '%' :: rest)

theorem conversions_plain (h : '%' ∉ text) (rest : List Char) :
    conversions .plain (text ++ rest) = conversions .plain rest := by
  induction text with
  | nil => rfl
  | cons c text ih =>
    rw [List.mem_cons, not_or] at h
    rw [List.cons_append, conversions, ih h.2]
    exact fun hc => h.1 hc.symm

theorem conversions_long (h : ∀ l ∈ long, l = 'l') (rest : List Char) :
    conversions .conversion (long ++ rest) = conversions .conversion rest := by
  induction long with
  | nil => rfl
  | cons l long ih =>
    rw [List.forall_mem_cons] at h
    rw [List.cons_append, h.1, conversions, ih h.2]

theorem splitOn_append {text rest : List Char} (h : '%' ∉ text)
    (hrest : rest.splitOn '%' = first :: others) :
    (text ++ rest).splitOn '%' = (text ++ first) :: others := by
  induction text with
  | nil => exact hrest
  | cons c text ih =>
    rw [List.mem_cons, not_or] at h
    rw [List.cons_append, List.splitOn_cons_eq_if_modifyHead, ih h.2, if_neg (by simpa using Ne.symm h.1)]
    rfl

end Printf

open Printf

namespace Flat

/-- The pieces of a tight format are its conversions. -/
theorem pieces_of_tight (h : Tight cs) :
    (((cs.splitOn '%').drop 1).filter fun piece => !piece.isEmpty).map asksForText =
      (conversions .plain cs).map (· == 's') := by
  have hopen (rest : List Char) : ('%' :: rest).splitOn '%' = [] :: rest.splitOn '%' := by
    rw [List.splitOn_cons_eq_if_modifyHead]
    rfl
  induction h with
  | @plain text htext =>
    rw [← List.append_nil text, splitOn_append htext (List.splitOn_nil _), conversions_plain htext]
    rfl
  | @conversion text long c rest htext hlong hc _ ih =>
    obtain ⟨first, others, hrest⟩ := List.exists_cons_of_ne_nil (List.splitOn_ne_nil '%' rest)
    have hpiece : '%' ∉ long ++ [c] := by
      rw [List.mem_append, List.mem_singleton, not_or]
      exact ⟨fun h => absurd (hlong _ h) (by decide), hc.2.symm⟩
    have hasks : asksForText (long ++ [c] ++ first) = (c == 's') := by
      rw [asksForText, List.append_assoc, List.dropWhile_append_of_pos (by simpa using hlong)]
      simp [hc.1]
      rfl
    have hsplit := splitOn_append hpiece hrest
    rw [List.append_assoc, List.singleton_append] at hsplit
    rw [splitOn_append htext (hopen _), conversions_plain htext, conversions, conversions_long hlong,
      conversions.eq_6 _ _ hc.1 hc.2, List.map_cons, ← ih, hsplit, hrest, ← hasks]
    simp
  | @escape text rest htext hrest hnext ih =>
    have hfirst : (rest.splitOn '%').filter (fun piece => !piece.isEmpty) =
        ((rest.splitOn '%').drop 1).filter fun piece => !piece.isEmpty := by
      cases rest with
      | nil => rfl
      | cons c rest =>
        obtain rfl : c = '%' := by simpa using hnext
        rw [hopen]
        rfl
    rw [splitOn_append htext (hopen _), hopen, conversions_plain htext, conversions, conversions, ← ih,
      ← hfirst]
    rfl

end Flat

/-! ## Texts in memory -/

namespace Utf8

theorem decodeFrom_char (index : Nat) (c : Char) (rest : List UInt8) :
    decodeFrom index (String.utf8EncodeChar c ++ rest) =
      (c :: ·) <$> decodeFrom (index + (String.utf8EncodeChar c).length) rest := by
  have hc : c = Char.ofNat c.val.toNat := (Char.ofNat_toNat c).symm
  have hvalid : c.val.toNat < 0xD800 ∨ 0xDFFF < c.val.toNat ∧ c.val.toNat < 0x110000 := c.valid
  unfold String.utf8EncodeChar
  dsimp only
  generalize c.val.toNat = v at *
  subst hc
  have hbyte {n : Nat} (h : n < 256) : (UInt8.ofNat n).toNat = n := UInt8.toNat_ofNat_of_lt' h
  have hchar {n k : Nat} (h : n = v) : (Char.ofNat n :: ·) <$> decodeFrom k rest =
      (Char.ofNat v :: ·) <$> decodeFrom k rest := by rw [h]
  -- One case for each number of bytes that a character takes.
  repeat' split
  all_goals
    rw [decodeFrom.eq_def]
    simp only [List.cons_append, List.nil_append, isTail, secondOfThree, secondOfFour, payload,
      UInt8.lt_iff_toNat_lt, UInt8.le_iff_toNat_le, ← UInt8.toNat_inj, UInt8.reduceToNat,
      Bool.and_eq_true, decide_eq_true_eq]
    simp (disch := omega) only [hbyte, if_pos, if_neg]
  · exact hchar rfl
  · exact hchar (by omega)
  · rw [if_pos (by grind)]
    exact hchar (by omega)
  · rw [if_pos (by grind)]
    exact hchar (by omega)

theorem decode_encode (s : String) : decode (encode s) = .ok s := by
  have hchars (cs : List Char) (index : Nat) :
      decodeFrom index (cs.flatMap String.utf8EncodeChar) = .ok cs := by
    induction cs generalizing index with
    | nil => rfl
    | cons c cs ih =>
      rw [List.flatMap_cons, decodeFrom_char, ih]
      rfl
  rw [decode, encode_eq, hchars]
  exact congrArg Except.ok s.ofList_toList

theorem zero_notMem_encode (h : '\x00' ∉ s.toList) : 0 ∉ encode s := by
  rw [encode_eq, List.mem_flatMap]
  rintro ⟨c, hc, hzero⟩
  have hbyte {n : Nat} (hn : n < 256) (hz : 0 = UInt8.ofNat n) : n = 0 := by
    rw [← UInt8.toNat_ofNat_of_lt' hn, ← hz]
    rfl
  have hnul : c.val.toNat = 0 := by
    unfold String.utf8EncodeChar at hzero
    dsimp only at hzero
    split at hzero
    · exact hbyte (by omega) (List.mem_singleton.mp hzero)
    · repeat' split at hzero
      all_goals
        simp only [List.mem_cons, List.not_mem_nil, or_false] at hzero
        grind
  exact h ((Char.ext (UInt32.toNat_inj.mp hnul) : c = '\x00') ▸ hc)

end Utf8

namespace Flat

variable {memory : Memory} {before after bytes : List UInt8} {fuel : Nat}

theorem read_data (hdata : memory.data.toList = before ++ b :: after)
    (hsize : dataBase + memory.data.size ≤ stackBase) :
    memory.read (dataBase + before.length) 1 = .ok [b] := by
  have hlength : memory.data.size = before.length + (after.length + 1) := by
    rw [← Array.length_toList, hdata, List.length_append, List.length_cons]
  refine Memory.read_eq_ok.mpr (.inr ⟨by omega, Nat.le_add_right .., ?_⟩)
  rw [Nat.add_sub_cancel_left, Memory.slice?_eq_some]
  refine ⟨by omega, rfl, fun k hk => ?_⟩
  obtain rfl : k = 0 := by omega
  rw [← Array.getElem?_toList, hdata, Nat.add_zero, List.getElem?_append_right (Nat.le_refl _),
    Nat.sub_self]
  rfl

theorem bytesUntilZero_data (hdata : memory.data.toList = before ++ (bytes ++ 0 :: after))
    (hsize : dataBase + memory.data.size ≤ stackBase) (hzero : 0 ∉ bytes) (hfuel : bytes.length < fuel) :
    memory.bytesUntilZero fuel (dataBase + before.length) = .ok bytes := by
  induction bytes generalizing before fuel with
  | nil =>
    obtain ⟨n, rfl⟩ : ∃ n, fuel = n + 1 := ⟨fuel - 1, by omega⟩
    rw [Memory.bytesUntilZero, read_data hdata hsize]
    rfl
  | cons b bytes ih =>
    obtain ⟨n, rfl⟩ : ∃ n, fuel = n + 1 := ⟨fuel - 1, by omega⟩
    rw [List.mem_cons, not_or] at hzero
    have hrest := @ih (before ++ [b]) n (by simpa using hdata) hzero.2 (by simpa using hfuel)
    rw [List.length_append, List.length_singleton, ← Nat.add_assoc] at hrest
    rw [Memory.bytesUntilZero, read_data hdata hsize]
    dsimp only [bind, Except.bind]
    rw [if_neg (Ne.symm hzero.1), hrest]
    rfl

theorem text_data (hdata : memory.data.toList = before ++ (Utf8.encode s ++ 0 :: after))
    (hsize : dataBase + memory.data.size ≤ stackBase) (hnul : '\x00' ∉ s.toList) :
    memory.text (dataBase + before.length) = .ok s := by
  have hlength := congrArg List.length hdata
  simp only [Array.length_toList, List.length_append, List.length_cons] at hlength
  rw [Memory.text, bytesUntilZero_data hdata hsize (Utf8.zero_notMem_encode hnul) (by omega)]
  dsimp only [bind, Except.bind]
  rw [Utf8.decode_encode]
  rfl

theorem printfArgs_eq (memory : Memory) (ps : List (List Char)) (vs : List Int64) (k : Nat) :
    printfArgs memory (ps.drop k) (vs.map .int) = (vs.zipIdx k).mapM fun p =>
      printfArg memory ((ps[p.2]?.map asksForText).getD false) (.int p.1) := by
  induction vs generalizing k with
  | nil => rfl
  | cons v vs ih =>
    rw [List.map_cons, printfArgs, List.head?_drop, List.tail_drop, ih, List.zipIdx_cons, List.mapM_cons]

def Given (memory : Memory) (arg : Printf.Arg) (v : Int64) : Prop :=
  match arg with
  | .int w => w = v
  | .text s => memory.text (addressOf v) = .ok s
  | .float _ => False

theorem printfArgs_nil (memory : Memory) (vs : List Int64) :
    printfArgs memory [] (vs.map .int) = .ok (vs.map .int) := by
  induction vs with
  | nil => rfl
  | cons v vs ih =>
    rw [List.map_cons, printfArgs, List.tail_nil, ih]
    rfl

theorem printfArg_of_given (hv : Given memory arg v) (h : convert c arg = .ok t) :
    printfArg memory (c == 's') (.int v) = .ok arg := by
  cases arg with
  | int w =>
    obtain rfl : w = v := hv
    have hc : c ≠ 's' := by
      rintro rfl
      cases h
    simp [printfArg, hc]
  | text s =>
    obtain rfl : c = 's' := by
      unfold convert at h
      split at h <;> simp_all
    exact congrArg (Except.map Arg.text) hv
  | float v => exact hv.elim

/-- When a format accepts arguments, and the pieces ask for texts where the conversions do, the machine
finds arguments that give the same text. -/
theorem exists_printfArgs (hargs : List.Forall₂ (Given memory) args vs)
    (hps : ps.map asksForText = (conversions state cs).map (· == 's'))
    (h : render state cs args = .ok text) :
    ∃ found, printfArgs memory ps (vs.map .int) = .ok found ∧ render state cs found = .ok text := by
  fun_induction render state cs args generalizing ps vs text with
  | case1 args =>
    rw [List.map_eq_nil_iff.mp hps]
    exact ⟨_, printfArgs_nil memory vs, by rwa [render]⟩
  | case2 rest args ih =>
    obtain ⟨found, hfound, hrest⟩ := ih hargs hps h
    exact ⟨found, hfound, by rwa [render]⟩
  | case3 c rest args hc ih =>
    obtain ⟨t, ht, h⟩ := except_bind_eq_ok.mp h
    rw [conversions.eq_3 _ _ hc] at hps
    obtain ⟨found, hfound, hrest⟩ := ih hargs hps ht
    exact ⟨found, hfound, by rwa [render.eq_3 _ _ _ hc, hrest]⟩
  | case4 | case7 => cases h
  | case5 rest args ih =>
    obtain ⟨found, hfound, hrest⟩ := ih hargs hps h
    exact ⟨found, hfound, by rwa [render]⟩
  | case6 rest args ih =>
    obtain ⟨t, ht, h⟩ := except_bind_eq_ok.mp h
    obtain ⟨found, hfound, hrest⟩ := ih hargs hps ht
    exact ⟨found, hfound, by rwa [render, hrest]⟩
  | case8 c rest arg args hlong hc ih =>
    obtain ⟨t, ht, h⟩ := except_bind_eq_ok.mp h
    obtain ⟨t', ht', h⟩ := except_bind_eq_ok.mp h
    rw [conversions.eq_6 _ _ hlong hc] at hps
    obtain ⟨piece, pieces, rfl, hpiece, hps⟩ := List.map_eq_cons_iff.mp hps
    obtain ⟨v, vs, hv, hvs, rfl⟩ := List.forall₂_cons_left_iff.mp hargs
    obtain ⟨found, hfound, hrest⟩ := ih hvs hps ht'
    refine ⟨arg :: found, ?_, by rw [render.eq_8 _ _ _ _ hlong hc, ht, hrest]; exact h⟩
    rw [List.map_cons, printfArgs, List.head?_cons, List.tail_cons, hfound, Option.map_some,
      Option.getD_some, hpiece, printfArg_of_given hv ht]
    rfl

end Flat

open Flat (Memory addressOf printfArgs pieces dataBase stackBase exists_printfArgs)

/-- A number, or a text without zero bytes, as both kinds of code pass it: flat code passes the address
of its datum. -/
inductive Passed (m : Ssa.Module) (fm : Flat.Module) : Ssa.Value → Int64 → Prop where
  | int (v : Int64) : Passed m fm (.int v) v
  | text (hstring : m.string? name = some ⟨name, s⟩) (hnul : '\x00' ∉ s.toList)
      (hdata : fm.data = before ++ ⟨datum, s⟩ :: after)
      (hv : addressOf v =
        dataBase + (before.flatMap fun d => Utf8.encode d.value ++ [0]).length) :
      Passed m fm (.ptr ⟨.global name, path⟩) v

theorem Passed.given {m : Ssa.Module} {fm : Flat.Module} (h : Passed m fm value v)
    (hsize : dataBase + fm.dataBytes.length ≤ stackBase) (stack : Array UInt8) :
    ∃ arg, Ssa.printfArg m value = .ok arg ∧ Flat.Given ⟨fm.dataBytes.toArray, stack⟩ arg v := by
  cases h with
  | int => exact ⟨.int v, rfl, rfl⟩
  | text hstring hnul hdata hv =>
    refine ⟨.text _, by rw [Ssa.printfArg, Ssa.textAt, hstring]; rfl, ?_⟩
    have hbytes := congrArg (List.flatMap fun d => Utf8.encode d.value ++ [0]) hdata
    rw [List.flatMap_append, List.flatMap_cons, List.append_assoc, List.singleton_append] at hbytes
    rw [Flat.Given, hv]
    exact Flat.text_data hbytes (by simpa using hsize) hnul

theorem Passed.forall_given {m : Ssa.Module} {fm : Flat.Module} (h : List.Forall₂ (Passed m fm) values vs)
    (hsize : dataBase + fm.dataBytes.length ≤ stackBase) (stack : Array UInt8)
    (hargs : values.mapM (Ssa.printfArg m) = .ok args) :
    List.Forall₂ (Flat.Given ⟨fm.dataBytes.toArray, stack⟩) args vs := by
  have hargs := mapM_eq_ok_iff.mp hargs
  induction h generalizing args with
  | nil =>
    cases hargs
    exact .nil
  | cons hv _ ih =>
    obtain ⟨arg, args, harg, hrest, rfl⟩ := List.forall₂_cons_left_iff.mp hargs
    obtain ⟨arg', harg', hgiven⟩ := hv.given hsize stack
    cases harg.symm.trans harg'
    exact .cons hgiven (ih (mapM_eq_ok_iff.mpr hrest) hrest)

/-- In a tight format the flat machine reads as a text just the arguments of the conversions for texts,
so where such a format accepts its arguments both kinds of code print the same. -/
theorem printf_reads_conversions (hfmt : Tight fmt.toList) :
    (∀ memory (vs : List Int64), printfArgs memory (pieces fmt) (vs.map .int) =
      vs.zipIdx.mapM fun p =>
        if (conversions .plain fmt.toList)[p.2]? = some 's' then
          .text <$> memory.text (addressOf p.1)
        else .ok (.int p.1)) ∧
    ∀ (m : Ssa.Module) (fm : Flat.Module) stack f g values vs text,
      dataBase + fm.dataBytes.length ≤ stackBase → Passed m fm f g →
      Ssa.textAt m f = .ok fmt → List.Forall₂ (Passed m fm) values vs →
      Ssa.foreignText m "printf" (f :: values) = .ok text →
      Flat.foreignText ⟨fm.dataBytes.toArray, stack⟩ "printf" (.int g :: vs.map .int) = .ok text := by
  have hpieces : (pieces fmt).map Flat.asksForText = (conversions .plain fmt.toList).map (· == 's') :=
    Flat.pieces_of_tight hfmt
  refine ⟨fun memory vs => ?_, fun m fm stack f g values vs text hsize hf hfmt hvalues h => ?_⟩
  · have hprint := Flat.printfArgs_eq memory (pieces fmt) vs 0
    rw [List.drop_zero] at hprint
    rw [hprint]
    congr 1
    funext p
    have hpiece := congrArg (·[p.2]?) hpieces
    simp only [List.getElem?_map] at hpiece
    rw [hpiece]
    cases (conversions .plain fmt.toList)[p.2]? with
    | none => rfl
    | some c => simp [Flat.printfArg, addressOf]
  · obtain ⟨fmt', hfmt', h⟩ := except_bind_eq_ok.mp h
    cases hfmt.symm.trans hfmt'
    obtain ⟨args, hargs, h⟩ := except_bind_eq_ok.mp h
    obtain ⟨arg, harg, hgiven⟩ := hf.given hsize stack
    have htext : Memory.text ⟨fm.dataBytes.toArray, stack⟩ (addressOf g) = .ok fmt := by
      cases hf with
      | int => cases hfmt
      | text =>
        rw [Ssa.printfArg, hfmt] at harg
        cases harg
        exact hgiven
    obtain ⟨found, hfound, hrender⟩ :=
      exists_printfArgs (Passed.forall_given hvalues hsize stack hargs) hpieces (mapError_eq_ok h)
    change (Memory.text _ (addressOf g) >>= _) = _
    rw [htext]
    change (printfArgs _ (pieces fmt) _ >>= _) = _
    rw [hfound]
    change (render .plain fmt.toList found).mapError _ = _
    rw [hrender]
    rfl

/-- A module with a format and a text for it. -/
def printfModule : Ssa.Module := ⟨"m", [], [⟨"f", "%%%ls"⟩, ⟨"x", "x"⟩], [], []⟩

/-- The same texts as data of flat code. -/
def printfData : Flat.Module := ⟨[], [⟨"f", "%%%ls"⟩, ⟨"x", "x"⟩], []⟩

theorem printf_reads_conversions_escaped :
    Tight "%%%ls".toList ∧ (∀ memory (v : Int64), printfArgs memory (pieces "%%%ls") [.int v] =
      [v].zipIdx.mapM fun p =>
        if (conversions .plain "%%%ls".toList)[p.2]? = some 's' then
          .text <$> memory.text (addressOf p.1)
        else .ok (.int p.1)) ∧
    Flat.foreignText ⟨printfData.dataBytes.toArray, #[]⟩ "printf" [.int 4096, .int 4102] = .ok "%x" := by
  have hlong : Tight ([] ++ '%' :: (['l'] ++ 's' :: [])) :=
    .conversion (by simp) (by simp) (by decide) (.plain (by simp))
  have h : Tight "%%%ls".toList :=
    (.escape (by simp) hlong rfl : Tight ([] ++ '%' :: '%' :: _))
  have hf : Passed printfModule printfData (.ptr ⟨.global "f", []⟩) 4096 :=
    .text rfl (by decide) (show printfData.data = [] ++ _ from rfl) (by decide)
  have hx : Passed printfModule printfData (.ptr ⟨.global "x", []⟩) 4102 :=
    .text rfl (by decide) (show printfData.data = [_] ++ _ from rfl) (by decide)
  exact ⟨h, fun memory v => (printf_reads_conversions h).1 memory [v],
    (printf_reads_conversions h).2 _ _ #[] _ _ [_] [_] "%x" (by decide) hf rfl (.cons hx .nil) rfl⟩

end StructLang
