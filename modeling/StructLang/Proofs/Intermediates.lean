import StructLang.Compilation
import StructLang.Proofs.LoadingOrder

/-!
# Files between source and executable

A build names its intermediate files after the executable, and the executable after the source unless
the user does. They are apart from both unless one of these has the extension of an intermediate file.
-/

namespace StructLang

namespace Path

/-- A path that ends with a name, below the other parts. -/
structure Ends (path : String) (dir : List String) (name : String) : Prop where
  eq : path = ofParts (dir ++ [name])
  noSlash : ∀ p ∈ dir ++ [name], '/' ∉ p.toList
  isName : name ≠ "" ∧ name ≠ "." ∧ name ≠ ".."

/-! ## Stems -/

theorem stemOf_dot (s : String) (he : '.' ∉ e.toList) :
    stemOf (s ++ "." ++ e) = if s = "" then s ++ "." ++ e else s := by
  have hdrop : (s ++ "." ++ e).toList.reverse.dropWhile (· ≠ '.') = '.' :: s.toList.reverse := by
    simp only [String.toList_append, List.reverse_append]
    rw [List.dropWhile_append_of_pos fun c hc =>
      decide_eq_true (ne_of_mem_of_not_mem (List.mem_reverse.mp hc) he)]
    simp
  rw [stemOf, hdrop, List.drop_one, List.tail_cons]
  split <;> simp_all

theorem stemOf_cases (name : String) : stemOf name = name ∨
    ∃ e, '.' ∉ e.toList ∧ name = stemOf name ++ "." ++ e ∧ stemOf name ≠ "" := by
  by_cases hdot : '.' ∈ name.toList.reverse
  · obtain ⟨e, s, hname, he⟩ := List.eq_append_cons_of_mem hdot
    obtain rfl : name = String.ofList s.reverse ++ "." ++ String.ofList e.reverse := by
      rw [← String.toList_inj]
      simpa using congrArg List.reverse hname
    have he : '.' ∉ (String.ofList e.reverse).toList := by simpa using he
    rw [stemOf_dot _ he]
    split
    · exact .inl rfl
    · next hs => exact .inr ⟨_, he, rfl, hs⟩
  · left
    have hdrop : (name.toList.reverse ++ []).dropWhile (· ≠ '.') = [] :=
      List.dropWhile_append_of_pos fun c hc => decide_eq_true (ne_of_mem_of_not_mem hc hdot)
    rw [List.append_nil] at hdrop
    rw [stemOf, hdrop]
    rfl

/-! ## Extensions -/

theorem lastName?_ofParts (hslash : ∀ p ∈ dir ++ [name], '/' ∉ p.toList) (hname : name ≠ "" ∧ name ≠ ".") :
    lastName? (ofParts (dir ++ [name])) = if name = ".." then none else some (name, dir.reverse) := by
  have hparts : parts (ofParts (dir ++ [name])) = dir ++ [name] := by
    rw [parts, splitOn_ofParts hslash (by simp), List.map_map]
    simp [Function.comp_def]
  have hdrop : dropSilent (name :: dir.reverse) = name :: dir.reverse := by
    cases dir.reverse with
    | nil => rfl
    | cons p ps => simp [dropSilent, hname]
  rw [lastName?, hparts, List.reverse_append, List.reverse_singleton, List.singleton_append, hdrop]
  split <;> simp_all

theorem Ends.lastName? (h : Ends path dir name) : lastName? path = some (name, dir.reverse) := by
  rw [h.eq, lastName?_ofParts h.noSlash ⟨h.isName.1, h.isName.2.1⟩, if_neg h.isName.2.2]

theorem exists_ofParts (dir : List String) : ∃ front : List Char, ∀ name,
    (ofParts (dir ++ [name])).toList = front ++ name.toList := by
  induction dir with
  | nil => exact ⟨[], fun name => by simp [ofParts]⟩
  | cons p dir ih =>
    obtain ⟨front, hfront⟩ := ih
    refine ⟨p.toList ++ '/' :: front, fun name => ?_⟩
    rw [List.append_assoc, List.cons_append, List.cons_append, ← hfront]
    cases hparts : dir ++ [name] with
    | nil => simp at hparts
    | cons q ps => simp [ofParts, String.toList_intercalate]

def ending (extension : String) : String := if extension.isEmpty then "" else "." ++ extension

theorem Ends.setExtension (h : Ends path dir name) (extension : String) :
    setExtension path extension = ofParts (dir ++ [stemOf name ++ ending extension]) := by
  rw [Path.setExtension, h.lastName?]
  simp [ending]

/-- A new extension stands behind the stem. Without its own extension, a name with the stem of a single
dot is the way up, which takes none. -/
theorem Ends.withExtension (h : Ends path dir name) (extension : String) :
    withExtension path extension =
      ofParts (dir ++ [if stemOf name = "." then ".." else stemOf name ++ ending extension]) := by
  obtain ⟨front, hfront⟩ := exists_ofParts dir
  rw [Path.withExtension, dropExtension, h.lastName?]
  dsimp only
  rcases stemOf_cases name with hstem | ⟨e, he, hname, hne⟩
  · have hnone : extensionLength name = 0 := by
      rw [extensionLength, hstem]
      omega
    rw [hnone, Nat.sub_zero, ← String.length_toList, List.take_length, String.ofList_toList,
      h.setExtension, if_neg]
    rw [hstem]
    exact h.isName.2.1
  · generalize hs : stemOf name = s at hname hne ⊢
    have hlength : extensionLength name = e.length := by
      rw [extensionLength, hs, hname]
      simp only [String.length_append, show ".".length = 1 from rfl]
      omega
    have hdropped : String.ofList (path.toList.take (path.length - e.length)) =
        ofParts (dir ++ [s ++ "."]) := by
      have htext : path.toList = (ofParts (dir ++ [s ++ "."])).toList ++ e.toList := by
        rw [h.eq, hfront, hfront, hname, String.toList_append, List.append_assoc]
      rw [← String.toList_inj, String.toList_ofList, ← String.length_toList, htext]
      exact List.take_left' (by simp [← String.length_toList])
    have hslash : ∀ p ∈ dir ++ [s ++ "."], '/' ∉ p.toList := by
      have hall := h.noSlash
      rw [hname] at hall
      simp only [List.mem_append, List.mem_singleton, or_imp, forall_and, forall_eq,
        String.toList_append, not_or] at hall ⊢
      exact ⟨hall.1, hall.2.1⟩
    rw [hlength, hdropped]
    by_cases hdot : s = "."
    · rw [hdot] at hslash ⊢
      rw [Path.setExtension, lastName?_ofParts hslash (by decide), if_pos (by decide), if_pos rfl]
      rfl
    · have hinj (t : String) (ht : s ++ "." = t ++ ".") : s = t :=
        String.toList_inj.mp (List.append_cancel_right
          (by simpa only [String.toList_append] using congrArg String.toList ht))
      have hends : Ends (ofParts (dir ++ [s ++ "."])) dir (s ++ ".") :=
        ⟨rfl, hslash, by simp, fun h => hne (hinj "" h), fun h => hdot (hinj "." h)⟩
      have hstem := stemOf_dot s (e := "") (by decide)
      rw [if_neg hne, String.append_empty] at hstem
      rw [hends.setExtension, hstem, if_neg hdot]

theorem ofParts_concat_inj (h : ∀ p ∈ dir ++ [name], '/' ∉ p.toList)
    (h' : ∀ p ∈ dir' ++ [name'], '/' ∉ p.toList) :
    ofParts (dir ++ [name]) = ofParts (dir' ++ [name']) ↔ dir = dir' ∧ name = name' := by
  refine ⟨fun heq => ?_, fun ⟨hdir, hname⟩ => by rw [hdir, hname]⟩
  simpa using ofParts_inj_of_ne_nil h h' (by simp) (by simp) heq

namespace Ends

theorem stemOf_ne_empty (h : Ends path dir name) : stemOf name ≠ "" := by
  rcases stemOf_cases name with hstem | ⟨e, -, -, hne⟩
  · rw [hstem]
    exact h.isName.1
  · exact hne

theorem noSlash_concat (h : Ends path dir name) (hx : '/' ∉ x.toList) :
    ∀ p ∈ dir ++ [x], '/' ∉ p.toList := by
  intro p hp
  rcases List.mem_append.mp hp with hp | hp
  · exact h.noSlash p (List.mem_append_left _ hp)
  · exact List.mem_singleton.mp hp ▸ hx

theorem noSlash_stemOf (h : Ends path dir name) : '/' ∉ (stemOf name).toList := by
  have hname := h.noSlash name (by simp)
  rcases stemOf_cases name with hstem | ⟨e, -, hdot, -⟩
  · rwa [hstem]
  · rw [hdot] at hname
    simp only [String.toList_append, List.mem_append, not_or] at hname
    exact hname.1.1

end Ends

end Path

open StructLang.Path

variable {o : Options}

theorem Options.codeFile_eq (hbuild : o.emitOnly = false) (hout : Ends o.executable dir name) :
    o.codeFile = ofParts
      (dir ++ [if stemOf name = "." then ".." else stemOf name ++ "." ++ o.backend.extension]) := by
  have hending : ending o.backend.extension = "." ++ o.backend.extension := by
    cases o.backend <;> rfl
  rw [codeFile, hbuild, if_neg Bool.false_ne_true, hout.withExtension, hending, String.append_assoc]

theorem Options.assemblyFile_eq (hbuild : o.emitOnly = false) (hout : Ends o.executable dir name) :
    o.linkRequest.assemblyFile =
      ofParts (dir ++ [if stemOf name = "." then ".." else stemOf name ++ "." ++ "s"]) := by
  have hcode := o.codeFile_eq hbuild hout
  have hext : '.' ∉ o.backend.extension.toList ∧ '/' ∉ o.backend.extension.toList ∧
      2 ≤ o.backend.extension.length := by
    cases o.backend <;> decide
  change Path.withExtension o.codeFile "s" = _
  by_cases hdot : stemOf name = "."
  · rw [if_pos hdot] at hcode ⊢
    have hnone : lastName? o.codeFile = none := by
      rw [hcode]
      exact lastName?_ofParts (hout.noSlash_concat (by decide)) (by decide)
    rw [Path.withExtension, dropExtension, hnone]
    dsimp only
    rw [Path.setExtension, hnone, hcode]
  · rw [if_neg hdot] at hcode ⊢
    have hends : Ends o.codeFile dir (stemOf name ++ "." ++ o.backend.extension) := by
      have hlength : 2 < (stemOf name ++ "." ++ o.backend.extension).length := by
        simp only [String.length_append, show ".".length = 1 from rfl]
        omega
      refine ⟨hcode, hout.noSlash_concat (by simp [hout.noSlash_stemOf, hext]), ?_, ?_, ?_⟩ <;>
        exact fun h => absurd (h ▸ hlength) (by decide)
    rw [hends.withExtension, stemOf_dot _ hext.1, if_neg hout.stemOf_ne_empty, if_neg hdot,
      String.append_assoc]
    rfl

/-- A file under the stem of an executable leads to a name exactly when this is the stem with the
extension. -/
theorem Path.Ends.stem_eq_iff (hout : Ends path dir name) (h : Ends path' dir' name')
    (hslash : '/' ∉ extension.toList) :
    ofParts (dir ++ [if stemOf name = "." then ".." else stemOf name ++ "." ++ extension]) = path' ↔
      stemOf name ≠ "." ∧ dir = dir' ∧ name' = stemOf name ++ "." ++ extension := by
  rw [h.eq]
  split
  · next hdot =>
    rw [ofParts_concat_inj (hout.noSlash_concat (by decide)) h.noSlash]
    exact ⟨fun heq => absurd heq.2.symm h.isName.2.2, fun heq => absurd hdot heq.1⟩
  · next hdot =>
    rw [ofParts_concat_inj (hout.noSlash_concat (by simp [hout.noSlash_stemOf, hslash])) h.noSlash]
    exact ⟨fun heq => ⟨hdot, heq.1, heq.2.symm⟩, fun heq => ⟨heq.2.1, heq.2.2.symm⟩⟩

/-- The executable of a build is its source exactly when they have one name, which happens by default if
the source has no extension. The code and the assembly are the executable or the source exactly when
that has their extension behind the stem of the executable. -/
theorem build_collides_iff (hbuild : o.emitOnly = false) (hin : Ends o.input dir source)
    (hout : Ends o.executable dir' name) :
    (o.executable = o.input ↔ dir' = dir ∧ name = source) ∧
    (o.output = none → dir' = dir ∧ name = stemOf source) ∧
    ∀ file extension, (file, extension) ∈
        [(o.codeFile, o.backend.extension), (o.linkRequest.assemblyFile, "s")] →
      (file = o.executable ↔ stemOf name ≠ "." ∧ name = stemOf name ++ "." ++ extension) ∧
      (file = o.input ↔
        stemOf name ≠ "." ∧ dir' = dir ∧ source = stemOf name ++ "." ++ extension) := by
  refine ⟨?_, fun hnone => ?_, fun file extension hfile => ?_⟩
  · rw [hout.eq, hin.eq, ofParts_concat_inj hout.noSlash hin.noSlash]
  · have hexecutable := hout.eq
    rw [Options.executable, hnone, Option.getD_none, hin.withExtension, eq_comm] at hexecutable
    have hslash : '/' ∉ (if stemOf source = "." then ".." else stemOf source ++ ending "").toList := by
      split
      · decide
      · simpa [ending] using hin.noSlash_stemOf
    obtain ⟨hdir, hname⟩ :=
      (ofParts_concat_inj hout.noSlash (hin.noSlash_concat hslash)).mp hexecutable
    split at hname
    · exact absurd hname hout.isName.2.2
    · exact ⟨hdir, by simpa [ending] using hname⟩
  · obtain ⟨rfl, hslash⟩ : file = ofParts
        (dir' ++ [if stemOf name = "." then ".." else stemOf name ++ "." ++ extension]) ∧
          '/' ∉ extension.toList := by
      simp only [List.mem_cons, Prod.mk.injEq, List.not_mem_nil, or_false] at hfile
      rcases hfile with ⟨rfl, rfl⟩ | ⟨rfl, rfl⟩
      · exact ⟨o.codeFile_eq hbuild hout, by cases o.backend <;> decide⟩
      · exact ⟨o.assemblyFile_eq hbuild hout, by decide⟩
    rw [hout.stem_eq_iff hout hslash, hout.stem_eq_iff hin hslash]
    simp

/-- A source with the extension of the code is overwritten by it. -/
theorem build_collides_iff_code :
    let o : Options := { input := "prog.ll" }
    Ends o.input [] "prog.ll" ∧ Ends o.executable [] "prog" ∧ o.codeFile = o.input := by
  intro o
  have hin : Ends o.input [] "prog.ll" := ⟨by decide, by decide, by decide⟩
  have hout : Ends o.executable [] "prog" := ⟨by decide +kernel, by decide, by decide⟩
  have hcode := (build_collides_iff rfl hin hout).2.2 _ _ List.mem_cons_self
  exact ⟨hin, hout, hcode.2.mpr (by decide +kernel)⟩

end StructLang
