import StructLang.Proofs.DuplicateReports
import StructLang.Proofs.Linkage

/-!
# The words of a symbol

A symbol is its parts joined by underscores, and a name may have underscores of its own. So a symbol
does not tell where one part ends and the next begins: it tells the words between the underscores and
their order, and nothing else. Two functions have one symbol exactly if they have the same words.
-/

namespace StructLang

/-! ## Words -/

def nameWords (s : String) : List (List Char) := s.toList.splitOn '_'

def moduleWords (module : String) : List (List Char) :=
  if module.isEmpty then [] else module.toList.splitOnP fun c => c == '.' || c == '_'

/-- The words of a function: of its module, its receiver, its name and its parameter types. -/
def FnHeader.words (f : FnHeader) : List (List Char) :=
  moduleWords f.module ++ f.receiver.toList.flatMap (fun ty => nameWords ty.name)
    ++ nameWords f.name ++ (f.params.map TypedName.ty).flatMap fun ty => nameWords ty.name

theorem splitOn_inj {t : List Char} : s.splitOn '_' = t.splitOn '_' ↔ s = t := by
  constructor
  · intro h
    have hs : ['_'].intercalate (s.splitOn '_') = s := List.intercalate_splitOn '_'
    rw [← hs, h, List.intercalate_splitOn]
  · exact congrArg _

theorem splitOn_module (cs : List Char) :
    (cs.map fun c => if c = '.' then '_' else c).splitOn '_' =
      cs.splitOnP fun c => c == '.' || c == '_' := by
  induction cs with
  | nil => rfl
  | cons c cs ih =>
    rw [List.map_cons, List.splitOn_cons_eq_if_modifyHead, ih, List.splitOnP_cons_eq_if_modifyHead]
    by_cases hdot : c = '.'
    · simp [hdot]
    · simp [hdot]

theorem splitOn_append_types (s : List Char) (types : List Ty) :
    (s ++ (String.join (types.map fun ty => "_" ++ ty.name)).toList).splitOn '_' =
      s.splitOn '_' ++ types.flatMap fun ty => nameWords ty.name := by
  induction types generalizing s with
  | nil => simp [String.join]
  | cons ty types ih =>
    have hjoin : (String.join ((ty :: types).map fun ty => "_" ++ ty.name)).toList =
        '_' :: (ty.name.toList ++ (String.join (types.map fun ty => "_" ++ ty.name)).toList) := by
      simp
    rw [hjoin, List.splitOn_append_cons_self, ih, List.flatMap_cons, nameWords]

theorem FnHeader.splitOn_linkage {f : FnHeader} (h : f.name ≠ entryPoint) :
    f.linkage.toList.splitOn '_' = f.words := by
  have htail := splitOn_append_types f.name.toList (f.params.map TypedName.ty)
  simp only [linkage, linkageName, Bool.false_or, beq_iff_eq, h, if_false, words, moduleWords,
    String.toList_append, List.append_assoc]
  generalize String.join ((f.params.map TypedName.ty).map fun ty => "_" ++ ty.name) = tail at htail ⊢
  -- a module and a receiver each stand in front of an underscore
  by_cases hm : f.module.isEmpty
  · cases hr : f.receiver with
    | none => simpa [hm, nameWords] using htail
    | some ty => simp [hm, nameWords, List.splitOn_append_cons_self, htail]
  · cases hr : f.receiver with
    | none | some ty => simp [hm, nameWords, List.splitOn_append_cons_self, splitOn_module, htail]

theorem FnHeader.linkage_eq_iff_words {f g : FnHeader} (hf : f.name ≠ entryPoint)
    (hg : g.name ≠ entryPoint) : f.linkage = g.linkage ↔ f.words = g.words := by
  rw [← splitOn_linkage hf, ← splitOn_linkage hg, splitOn_inj, String.toList_inj]

/-! ## Types of one word -/

/-- A type that a source text can spell and that is written as one word. -/
structure Ty.OneWord (ty : Ty) : Prop where
  proper : ty.Proper
  unreserved : ∀ name, ty = .struct name → Keyword.ofSpelling? name = none
  word : '_' ∉ ty.name.toList

namespace Ty.OneWord

variable {ty : Ty}

theorem nameWords_eq (h : ty.OneWord) : nameWords ty.name = [ty.name.toList] :=
  List.splitOn_eq_singleton h.word

theorem typeOf?_wordKind (h : ty.OneWord) :
    Tree.typeOf? (Token.wordKind ty.name.toList) = some ty := by
  cases ty with
  | struct name => simp [Token.wordKind, Ty.name, h.unreserved name rfl, Tree.typeOf?]
  | unknown => exact absurd rfl h.proper.1
  | error => exact absurd rfl h.proper.2
  | void | bool | string | i32 | i64 | f32 | f64 => decide

theorem flatMap_nameWords {types : List Ty} (h : ∀ ty ∈ types, ty.OneWord) :
    (types.flatMap fun ty => nameWords ty.name) = types.map fun ty => ty.name.toList := by
  induction types with
  | nil => rfl
  | cons ty types ih =>
    obtain ⟨hty, htypes⟩ := List.forall_mem_cons.mp h
    rw [List.flatMap_cons, hty.nameWords_eq, ih htypes, List.map_cons, List.singleton_append]

theorem map_name_inj {types' : List Ty} (h : ∀ ty ∈ types, ty.OneWord)
    (h' : ∀ ty ∈ types', ty.OneWord) :
    (types.map fun ty => ty.name.toList) = (types'.map fun ty => ty.name.toList) ↔
      types = types' := by
  have hread : ∀ {types : List Ty}, (∀ ty ∈ types, ty.OneWord) →
      (types.map fun ty => ty.name.toList).map (fun w => Tree.typeOf? (Token.wordKind w)) =
        types.map some := by
    intro types h
    rw [List.map_map]
    exact List.map_congr_left fun ty hty => (h ty hty).typeOf?_wordKind
  constructor
  · intro heq
    apply List.map_injective_iff.mpr fun _ _ => Option.some.inj
    rw [← hread h, ← hread h', heq]
  · exact congrArg _

end Ty.OneWord

/-- A method and a function without a receiver that have the same words: the function takes the
receiver first, and their name repeats the name of the receiver. -/
structure FnHeader.Imitates (f g : FnHeader) (receiver : Ty) : Prop where
  method : f.receiver = some receiver
  free : g.receiver = none
  types : g.params.map TypedName.ty = receiver :: f.params.map TypedName.ty
  name : ∀ word ∈ nameWords f.name, word = receiver.name.toList

theorem words_moved_iff : word :: (name ++ types) = name ++ types' ↔
      (∀ w ∈ name, w = word) ∧ types' = word :: types := by
  induction name generalizing word with
  | nil => simp [eq_comm]
  | cons w name ih =>
    rw [List.cons_append, List.cons_append, List.cons.injEq, List.forall_mem_cons]
    constructor
    · rintro ⟨rfl, htail⟩
      obtain ⟨hall, htypes⟩ := ih.mp htail
      exact ⟨⟨rfl, hall⟩, htypes⟩
    · rintro ⟨⟨rfl, hall⟩, htypes⟩
      exact ⟨rfl, ih.mpr ⟨hall, htypes⟩⟩

namespace FnHeader

variable {f g : FnHeader}

theorem words_of_oneWord (h : ∀ ty ∈ f.signature, ty.OneWord) :
    f.words = moduleWords f.module ++ (f.receiver.toList.map (fun ty => ty.name.toList)
      ++ (nameWords f.name ++ (f.params.map TypedName.ty).map fun ty => ty.name.toList)) := by
  obtain ⟨hreceiver, hparams⟩ := List.forall_mem_append.mp h
  rw [words, Ty.OneWord.flatMap_nameWords hreceiver, Ty.OneWord.flatMap_nameWords hparams,
    List.append_assoc, List.append_assoc]

/-- A method and a function without a receiver have one symbol exactly if one imitates the other. -/
theorem words_eq_iff_imitates {receiver : Ty} (hmodule : f.module = g.module)
    (hname : f.name = g.name) (hf : ∀ ty ∈ f.signature, ty.OneWord)
    (hg : ∀ ty ∈ g.signature, ty.OneWord) (hmethod : f.receiver = some receiver)
    (hfree : g.receiver = none) : f.words = g.words ↔ f.Imitates g receiver := by
  obtain ⟨hreceiver, hfparams⟩ := List.forall_mem_append.mp hf
  obtain ⟨-, hgparams⟩ := List.forall_mem_append.mp hg
  have hsignature : ∀ ty ∈ receiver :: f.params.map TypedName.ty, ty.OneWord := by
    simpa [signature, hmethod] using hf
  rw [words_of_oneWord hf, words_of_oneWord hg, hmodule, hname, hmethod, hfree,
    List.append_cancel_left_eq]
  simp only [Option.toList_some, Option.toList_none, List.map_cons, List.map_nil,
    List.singleton_append, List.nil_append]
  have htypes := Ty.OneWord.map_name_inj hgparams hsignature
  rw [List.map_cons] at htypes
  rw [words_moved_iff, htypes, ← hname]
  constructor
  · rintro ⟨hwords, htypes⟩
    exact ⟨hmethod, hfree, htypes, hwords⟩
  · intro h
    exact ⟨h.name, h.types⟩

/-- Functions of one module with one name and one receiver, or none, have one symbol exactly if their
parameter types are the same. -/
theorem words_eq_iff_types (hmodule : f.module = g.module) (hname : f.name = g.name)
    (hreceiver : f.receiver = g.receiver) (hf : ∀ ty ∈ f.signature, ty.OneWord)
    (hg : ∀ ty ∈ g.signature, ty.OneWord) :
    f.words = g.words ↔ f.params.map TypedName.ty = g.params.map TypedName.ty := by
  obtain ⟨-, hfparams⟩ := List.forall_mem_append.mp hf
  obtain ⟨-, hgparams⟩ := List.forall_mem_append.mp hg
  rw [words_of_oneWord hf, words_of_oneWord hg, hmodule, hname, hreceiver,
    List.append_cancel_left_eq, List.append_cancel_left_eq, List.append_cancel_left_eq,
    Ty.OneWord.map_name_inj hfparams hgparams]

theorem words_ne_of_receiver {receiver : Ty} (hmodule : f.module = g.module)
    (hf : ∀ ty ∈ f.signature, ty.OneWord) (hg : ∀ ty ∈ g.signature, ty.OneWord)
    (hfreceiver : f.receiver = some receiver) (hgreceiver : g.receiver = some receiver')
    (hne : receiver ≠ receiver') : f.words ≠ g.words := by
  have hword : receiver.OneWord := hf receiver (by simp [signature, hfreceiver])
  have hword' : receiver'.OneWord := hg receiver' (by simp [signature, hgreceiver])
  intro h
  rw [words_of_oneWord hf, words_of_oneWord hg, hmodule, hfreceiver, hgreceiver,
    List.append_cancel_left_eq] at h
  have hname : receiver.name.toList = receiver'.name.toList := (List.cons.inj h).1
  apply hne
  apply Option.some.inj
  rw [← hword.typeOf?_wordKind, hname, hword'.typeOf?_wordKind]

/-- Functions of one module with one name whose types are one word each have one symbol only if they
take the same receiver and the same types, or if one imitates the other. -/
theorem linkage_eq_iff_types (hmodule : f.module = g.module) (hname : f.name = g.name)
    (hmain : f.name ≠ entryPoint) (hf : ∀ ty ∈ f.signature, ty.OneWord)
    (hg : ∀ ty ∈ g.signature, ty.OneWord) :
    f.linkage = g.linkage ↔
      (f.receiver = g.receiver ∧ f.params.map TypedName.ty = g.params.map TypedName.ty) ∨
        ∃ receiver, f.Imitates g receiver ∨ g.Imitates f receiver := by
  rw [linkage_eq_iff_words hmain (hname ▸ hmain)]
  constructor
  · intro h
    by_cases hreceiver : f.receiver = g.receiver
    · exact .inl ⟨hreceiver, (words_eq_iff_types hmodule hname hreceiver hf hg).mp h⟩
    · cases hfr : f.receiver with
      | none =>
        cases hgr : g.receiver with
        | none => exact absurd (hfr.trans hgr.symm) hreceiver
        | some receiver =>
          exact .inr ⟨receiver, .inr ((words_eq_iff_imitates hmodule.symm hname.symm hg hf hgr
            hfr).mp h.symm)⟩
      | some receiver =>
        cases hgr : g.receiver with
        | none =>
          exact .inr ⟨receiver, .inl ((words_eq_iff_imitates hmodule hname hf hg hfr hgr).mp h)⟩
        | some receiver' =>
          have hne : receiver ≠ receiver' := by
            rintro rfl
            exact hreceiver (hfr.trans hgr.symm)
          exact absurd h (words_ne_of_receiver hmodule hf hg hfr hgr hne)
  · rintro (⟨hreceiver, htypes⟩ | ⟨receiver, h | h⟩)
    · exact (words_eq_iff_types hmodule hname hreceiver hf hg).mpr htypes
    · exact (words_eq_iff_imitates hmodule hname hf hg h.method h.free).mpr h
    · exact ((words_eq_iff_imitates hmodule.symm hname.symm hg hf h.method h.free).mpr h).symm

end FnHeader

/-! ## Functions of one program -/

/-- When two functions of a program have one symbol: exactly if their words are the same. Where the types
of two functions of one module and one name are one word each, the symbol tells them apart, unless one
imitates the other. A function is reported as defined twice exactly if an earlier one has its words. -/
theorem Program.same_symbol_iff (p : Program) :
    (∀ f ∈ p.functions, ∀ g ∈ p.functions, f.name ≠ entryPoint → g.name ≠ entryPoint →
      (f.linkage = g.linkage ↔ f.words = g.words)) ∧
    (∀ f ∈ p.functions, ∀ g ∈ p.functions, f.module = g.module → f.name = g.name →
      f.name ≠ entryPoint → (∀ ty ∈ f.signature ++ g.signature, ty.OneWord) →
      (f.linkage = g.linkage ↔
        (f.receiver = g.receiver ∧ f.params.map TypedName.ty = g.params.map TypedName.ty) ∨
          ∃ receiver, f.Imitates g.toFnHeader receiver ∨ g.Imitates f.toFnHeader receiver)) ∧
    ∀ d, (d ∈ p.analyze.diagnostics ∧ d.SaysDuplicate) ↔
      ∃ before g after, p.functions = before ++ g :: after ∧ g.name ≠ entryPoint ∧
        d = (Issue.duplicateFunction g.name).report g.span ∧
        ∃ f ∈ before, f.name ≠ entryPoint ∧ f.words = g.words := by
  refine ⟨fun f _ g _ hf hg => FnHeader.linkage_eq_iff_words hf hg, ?_, fun d => ?_⟩
  · intro f _ g _ hmodule hname hmain htypes
    obtain ⟨hf, hg⟩ := List.forall_mem_append.mp htypes
    exact FnHeader.linkage_eq_iff_types hmodule hname hmain hf hg
  · rw [p.saysDuplicate_iff d]
    constructor
    · rintro ⟨before, g, after, hp, hg, hd, f, hf, hmain, hsymbol⟩
      exact ⟨before, g, after, hp, hg, hd, f, hf, hmain,
        (FnHeader.linkage_eq_iff_words hmain hg).mp hsymbol⟩
    · rintro ⟨before, g, after, hp, hg, hd, f, hf, hmain, hwords⟩
      exact ⟨before, g, after, hp, hg, hd, f, hf, hmain,
        (FnHeader.linkage_eq_iff_words hmain hg).mpr hwords⟩

/-- A function named `f` without a receiver or a body that takes these types. -/
def FnDef.taking (types : List Ty) : FnDef where
  name := "f"
  module := ""
  receiver := none
  params := types.map fun ty => ⟨"p", ty, default⟩
  ret := .void
  span := default
  body := default

/-- Two structs with the names of a third one's words run together, and two numbers do not. -/
theorem Program.same_symbol_sample :
    let f := FnDef.taking [.struct "a", .struct "b"]
    let g := FnDef.taking [.struct "a_b"]
    let p : Program := ⟨[.fn f, .fn g, .fn (.taking [.i32]), .fn (.taking [.i64])]⟩
    f.linkage = g.linkage ∧
      (Issue.duplicateFunction "f").report default ∈ p.analyze.diagnostics ∧
      (FnDef.taking [.i32]).linkage ≠ (FnDef.taking [.i64]).linkage := by
  intro f g p
  have hf : f ∈ p.functions := by simp [p, Program.functions]
  have hg : g ∈ p.functions := by simp [p, Program.functions]
  have hwords : f.words = g.words := by decide
  refine ⟨?_, ?_, ?_⟩
  · exact (p.same_symbol_iff.1 f hf g hg (by decide) (by decide)).mpr hwords
  · exact ((p.same_symbol_iff.2.2 _).mpr ⟨[f], g, _, rfl, by decide, rfl, f, by simp, by decide,
      hwords⟩).1
  · have hword : ∀ ty ∈ [Ty.i32, Ty.i64], ty.OneWord := by
      have hi32 : Ty.i32.OneWord := ⟨by simp [Ty.Proper], by simp, by decide⟩
      have hi64 : Ty.i64.OneWord := ⟨by simp [Ty.Proper], by simp, by decide⟩
      simp [hi32, hi64]
    rw [ne_eq, p.same_symbol_iff.2.1 (.taking [.i32]) (by simp [p, Program.functions])
      (.taking [.i64]) (by simp [p, Program.functions]) rfl rfl (by decide) hword]
    rintro (⟨-, htypes⟩ | ⟨receiver, himitates | himitates⟩)
    · cases htypes
    · cases himitates.method
    · cases himitates.method

end StructLang
