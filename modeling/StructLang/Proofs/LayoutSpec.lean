import StructLang.Proofs.Flat.Totality

/-!
# Layouts follow from the fields alone

The layout of a struct is given by a recursion over the structs that it holds: sizes add up, offsets are
sums of sizes, and the alignment is that of the widest scalar inside. Sums wrap around at `2 ^ 64`, unless
the fields of every struct fit. Nothing depends on the order in which structs are declared or measured.
All sizes are whole numbers of words, so that the code which clears a struct word by word clears it
exactly.
-/

namespace StructLang

open scoped CoreNumbers

/-- A struct has a scalar of eight bytes, in a field of its own or of a struct that it holds. -/
def Symbols.HoldsWide (s : Symbols) (name : String) : Prop :=
  ∃ inner d, Relation.ReflTransGen s.Holds name inner ∧ s.struct? inner = some d ∧
    ∃ f ∈ d.fields, f.ty.isStruct = false ∧ Extent.scalarSize f.ty = 8

section

variable {s : Symbols} {l : Layouts}

/-- A field makes its struct one with a scalar of eight bytes. -/
def Symbols.WideField (s : Symbols) (f : TypedName) : Prop :=
  f.ty.isStruct = false ∧ Extent.scalarSize f.ty = 8 ∨
    ∃ inner, f.ty = .struct inner ∧ s.HoldsWide inner

theorem Symbols.holdsWide_iff (hd : s.struct? name = some d) :
    s.HoldsWide name ↔ ∃ f ∈ d.fields, s.WideField f := by
  constructor
  · rintro ⟨inner, d', hway, hd', f, hf, hwide⟩
    rcases Relation.ReflTransGen.cases_head hway with rfl | ⟨next, ⟨d1, hd1, hnext⟩, hrest⟩
    · rw [Option.some.inj (hd.symm.trans hd')]
      exact ⟨f, hf, .inl hwide⟩
    · rw [← Option.some.inj (hd.symm.trans hd1)] at hnext
      obtain ⟨g, hg, hty⟩ := Typing.mem_fieldStructs.mp hnext
      exact ⟨g, hg, .inr ⟨next, hty, inner, d', hrest, hd', f, hf, hwide⟩⟩
  · rintro ⟨f, hf, hwide | ⟨inner, hty, inner', d', hway, hwide⟩⟩
    · exact ⟨name, d, .refl, hd, f, hf, hwide⟩
    · exact ⟨inner', d', hway.head ⟨d, hd, Typing.mem_fieldStructs.mpr ⟨f, hf, hty⟩⟩, hwide⟩

theorem foldl_max_le_iff {g : α → Nat} {xs : List α} :
    xs.foldl (fun a x => max a (g x)) a ≤ b ↔ a ≤ b ∧ ∀ x ∈ xs, g x ≤ b := by
  induction xs generalizing a with
  | nil => simp
  | cons x xs ih => rw [List.foldl_cons, ih, Nat.max_le, List.forall_mem_cons, and_assoc]

/-- The alignment of a packed struct, from the alignments of its fields. -/
theorem Layouts.align_packed {wide : TypedName → Prop}
    (h : ∀ f ∈ d.fields, (wide f → (l.extentOf f.ty).align = 8) ∧
      (¬wide f → (l.extentOf f.ty).align = 4)) :
    ((∃ f ∈ d.fields, wide f) → (l.packed d).align = 8) ∧
      ((¬∃ f ∈ d.fields, wide f) → (l.packed d).align = 4) := by
  have halign : ∀ bound, (l.packed d).align ≤ bound ↔
      4 ≤ bound ∧ ∀ f ∈ d.fields, (l.extentOf f.ty).align ≤ bound := by
    intro bound
    simp only [Layouts.packed, StructLayout.pack, foldl_max_le_iff, List.forall_mem_map]
  obtain ⟨hfour, hfields⟩ := (halign _).mp (Nat.le_refl _)
  constructor
  · rintro ⟨f, hf, hwide⟩
    refine Nat.le_antisymm ((halign 8).mpr ⟨by omega, fun g hg => ?_⟩) ?_
    · have hg := h g hg
      by_cases hw : wide g
      · exact Nat.le_of_eq (hg.1 hw)
      · rw [hg.2 hw]
        omega
    · exact (h f hf).1 hwide ▸ hfields f hf
  · intro hnone
    refine Nat.le_antisymm ((halign 4).mpr ⟨Nat.le_refl _, fun g hg => ?_⟩) hfour
    exact Nat.le_of_eq ((h g hg).2 fun hw => hnone ⟨g, hg, hw⟩)

theorem Layouts.four_dvd_sum {fields : List TypedName} (h : ∀ f ∈ fields, 4 ∣ l.sizeOf f.ty) :
    4 ∣ (fields.map fun f => l.sizeOf f.ty).sum := by
  induction fields with
  | nil => exact Nat.dvd_zero 4
  | cons f rest ih =>
    obtain ⟨hf, hrest⟩ := List.forall_mem_cons.mp h
    exact Nat.dvd_add hf (ih hrest)

/-- What is true of a struct if it is true of the structs in its fields is true of every struct. -/
@[elab_as_elim] theorem Symbols.Grounded.induct {motive : String → StructDef → Prop} (hs : s.Grounded)
    (hdeclared : s.FieldsDeclared) (hd : s.struct? name = some d)
    (step : ∀ name d, s.struct? name = some d → (∀ f ∈ d.fields, ∀ inner, f.ty = .struct inner →
      ∃ d', s.struct? inner = some d' ∧ motive inner d') → motive name d) : motive name d := by
  induction name using hs.wellFounded.induction generalizing d with
  | _ name ih =>
    refine step name d hd fun f hf inner hty => ?_
    have hm : inner ∈ Typing.fieldStructs d := Typing.mem_fieldStructs.mpr ⟨f, hf, hty⟩
    obtain ⟨d', hd'⟩ := hdeclared d (Symbols.struct?_eq_some hd).1 inner hm
    exact ⟨d', hd', ih inner ⟨d, hd, hm⟩ hd'⟩

section

variable (hs : s.Grounded) (hdeclared : s.FieldsDeclared) (hl : Flat.LaidOut s l)
include hs hdeclared hl

/-- A struct is aligned to eight bytes exactly if it holds a scalar of this width. -/
theorem Layouts.align_eq (hd : s.struct? name = some d) :
    (s.HoldsWide name → (l.packed d).align = 8) ∧ (¬s.HoldsWide name → (l.packed d).align = 4) := by
  refine hs.induct hdeclared hd fun name d hd ih => ?_
  rw [Symbols.holdsWide_iff hd]
  refine Layouts.align_packed fun f hf => ?_
  unfold Symbols.WideField
  cases hty : f.ty with
  | struct inner =>
    obtain ⟨d', hd', hinner⟩ := ih f hf inner hty
    simpa [Ty.isStruct, Layouts.extentOf, StructLayout.extent, hl inner d' hd'] using hinner
  | _ => simp [Ty.isStruct, Layouts.extentOf, Extent.scalar, Extent.scalarSize, Extent.unresolved]

theorem Layouts.four_dvd_size (hd : s.struct? name = some d) : 4 ∣ (l.packed d).size := by
  refine hs.induct hdeclared hd fun name d hd ih => ?_
  rw [l.size_packed, Nat.dvd_mod_iff (by decide : (4 : Nat) ∣ 2 ^ (64 : Nat))]
  refine Layouts.four_dvd_sum fun f hf => ?_
  cases hty : f.ty with
  | struct inner =>
    obtain ⟨d', hd', hinner⟩ := ih f hf inner hty
    simpa [Layouts.sizeOf, Ty.structName?, hl inner d' hd'] using hinner
  | _ => simp [Layouts.sizeOf, Ty.structName?, Extent.scalarSize, Extent.unresolved]

/-- Layouts of the same declarations are the same. -/
theorem Layouts.packed_unique (hl' : Flat.LaidOut s l') (hd : s.struct? name = some d) :
    l'.packed d = l.packed d := by
  refine hs.induct hdeclared hd fun name d hd ih => ?_
  unfold Layouts.packed
  congr 1
  refine List.map_congr_left fun f hf => ?_
  cases hty : f.ty with
  | struct inner =>
    obtain ⟨d', hd', hinner⟩ := ih f hf inner hty
    simp [Layouts.extentOf, hl inner d' hd', hl' inner d' hd', hinner]
  | _ => rfl

end

/-- Names mean the same in another order of the declarations. -/
theorem Symbols.struct?_of_perm {s' : Symbols} (hn : (s.structs.map StructDef.name).Nodup)
    (hp : s'.structs.Perm s.structs) (name : String) : s'.struct? name = s.struct? name := by
  cases hd : s.struct? name with
  | none =>
    refine List.find?_eq_none.mpr fun d hm => ?_
    exact List.find?_eq_none.mp hd d (hp.subset hm)
  | some d =>
    obtain ⟨hm, rfl⟩ := struct?_eq_some hd
    exact struct?_name ((hp.map _).nodup_iff.mpr hn) (hp.symm.subset hm)

end

/-- Programs with the same structs in another order have the same layouts. -/
theorem Program.get?_layouts_of_perm {p p' : Program} (hs : p.symbols.Grounded)
    (hdeclared : p.symbols.FieldsDeclared) (hp : p'.structs.Perm p.structs) (name : String) :
    p'.layouts.get? name = p.layouts.get? name := by
  have hstruct : ∀ name, p'.symbols.struct? name = p.symbols.struct? name :=
    Symbols.struct?_of_perm hs.nodup hp
  have hholds : p'.symbols.Holds = p.symbols.Holds := by
    funext outer inner
    simp only [Symbols.Holds, hstruct]
  have hs' : p'.symbols.Grounded := ⟨(hp.map _).nodup_iff.mpr hs.nodup, hholds ▸ hs.acyclic⟩
  have hdeclared' : p'.symbols.FieldsDeclared := by
    intro d hd inner hm
    rw [hstruct]
    exact hdeclared d (hp.subset hd) inner hm
  have hget := p.get?_layouts hs hdeclared
  have hget' := p'.get?_layouts hs' hdeclared'
  rw [hget, hget', hstruct]
  cases hd : p.symbols.struct? name with
  | none => rw [Option.map_none, Option.map_none]
  | some d =>
    have hl : Flat.LaidOut p.symbols p.layouts := fun name d hd => by rw [hget, hd, Option.map_some]
    have hl' : Flat.LaidOut p.symbols p'.layouts := fun name d hd => by rw [hget', hstruct, hd, Option.map_some]
    rw [Option.map_some, Option.map_some, Layouts.packed_unique hs hdeclared hl hl' hd]

/-! ## Clearing a struct -/

namespace Flat

/-- The offsets from an address at which code writes zero words. -/
def clearedAt (a : Operand) : List Instr → List Int64
  | .store .word (.int v) target :: rest =>
    if v = 0 ∧ target = a then 0 :: clearedAt a rest else []
  | .assign temp .long .add [start, .int offset] :: .store .word (.int v) target :: rest =>
    if v = 0 ∧ start = a ∧ target = .temp temp then offset :: clearedAt a rest else []
  | _ => []

theorem ZeroWords.clearedAt (h : ZeroWords a words offset s code s') : clearedAt a code =
      (List.range words).map fun k => Int64.ofNat (offset + 4 * k) := by
  induction h with
  | nil => rfl
  | first _ ih =>
    rw [Flat.clearedAt, if_pos ⟨rfl, rfl⟩, ih, List.range_succ_eq_map, List.map_cons, List.map_map]
    refine congrArg (List.cons _) (List.map_congr_left fun k _ => congrArg Int64.ofNat ?_)
    omega
  | next _ _ ih =>
    rw [Flat.clearedAt, if_pos ⟨rfl, rfl, rfl⟩, ih, List.range_succ_eq_map, List.map_cons, List.map_map]
    refine congrArg (List.cons _) (List.map_congr_left fun k _ => congrArg Int64.ofNat ?_)
    omega

/-- The code that clears a struct of a whole number of words: one zero for each. -/
theorem exists_storeZero {env : Env} (h : 4 ∣ env.layouts.sizeOf (.struct name)) (a : Operand)
    (draft : Draft) : ∃ draft' code,
      Lower.storeZero env (.struct name) a draft = .ok ((), draft') ∧ draft'.body = draft.body ++ code ∧
      clearedAt a code =
        (List.range (env.layouts.sizeOf (.struct name) / 4)).map fun k => Int64.ofNat (4 * k) := by
  obtain ⟨_, draft', hok, -⟩ := Lower.yields_zeroWords a ((env.layouts.sizeOf (.struct name) + 3) / 4) 0 draft
  obtain ⟨code, s', rfl, hwords⟩ := emits_zeroWords a _ 0 _ draft rfl _ _ hok
  refine ⟨_, code, hok, rfl, ?_⟩
  have hcount : (env.layouts.sizeOf (.struct name) + 3) / 4 = env.layouts.sizeOf (.struct name) / 4 := by
    omega
  simpa [hcount] using hwords.clearedAt

end Flat

/-- Layouts follow their recursive definition. Where structs have different names, hold each other
without a cycle and name declared structs only, a struct is as long as its fields together, each field
lies after those before it, the alignment is eight bytes exactly if a scalar of this width is inside, and
the size is a whole number of words, each of which is cleared once. The order of the declarations does
not matter. Sizes and offsets are 64-bit numbers: in general they are what these sums leave modulo
`2 ^ 64`, and they are the sums themselves where no struct takes `2 ^ 64` bytes. -/
theorem layouts_recursive {p : Program} (hs : p.symbols.Grounded)
    (hdeclared : p.symbols.FieldsDeclared) :
    (∀ d ∈ p.structs, ∃ sl, p.layouts.get? d.name = some sl ∧
      (p.SizesFit → sl.size = (d.fields.map fun f => p.layouts.sizeOf f.ty).sum ∧
        sl.fields = d.fields.mapIdx fun i f => ⟨f.name, f.ty,
          ((d.fields.take i).map fun g => p.layouts.sizeOf g.ty).sum, p.layouts.sizeOf f.ty⟩) ∧
      sl.size = (d.fields.map fun f => p.layouts.sizeOf f.ty).sum % 2 ^ (64 : Nat) ∧
      (sl.fields = d.fields.mapIdx fun i f => ⟨f.name, f.ty,
        ((d.fields.take i).map fun g => p.layouts.sizeOf g.ty).sum % 2 ^ (64 : Nat), p.layouts.sizeOf f.ty⟩) ∧
      sl.size = p.layouts.sizeOf (.struct d.name) ∧
      (p.symbols.HoldsWide d.name → sl.align = 8) ∧ (¬p.symbols.HoldsWide d.name → sl.align = 4) ∧
      4 ∣ sl.size ∧ (∀ i, i < sl.size ↔ ∃ k < sl.size / 4, 4 * k ≤ i ∧ i < 4 * k + 4) ∧
      ∀ (env : Flat.Env) a draft, env.layouts = p.layouts → ∃ draft' code,
        Flat.Lower.storeZero env (.struct d.name) a draft = .ok ((), draft') ∧
        draft'.body = draft.body ++ code ∧
        Flat.clearedAt a code = (List.range (sl.size / 4)).map fun k => Int64.ofNat (4 * k)) ∧
    ∀ p' : Program, p'.structs.Perm p.structs → ∀ name,
      p'.layouts.get? name = p.layouts.get? name := by
  refine ⟨fun d hmem => ?_, fun p' hp name => p.get?_layouts_of_perm hs hdeclared hp name⟩
  have hget := p.get?_layouts hs hdeclared
  have hl : Flat.LaidOut p.symbols p.layouts := fun name d hd => by rw [hget, hd, Option.map_some]
  have hd := Symbols.struct?_name hs.nodup hmem
  have hsize : p.layouts.sizeOf (.struct d.name) = (p.layouts.packed d).size := by
    simp [Layouts.sizeOf, Ty.structName?, hl d.name d hd]
  have hwords := Layouts.four_dvd_size hs hdeclared hl hd
  obtain ⟨hwide, hnarrow⟩ := Layouts.align_eq hs hdeclared hl hd
  refine ⟨p.layouts.packed d, hl d.name d hd, fun hfit => Layouts.packed_exact (hfit d hmem),
    p.layouts.size_packed d, p.layouts.fields_packed d, hsize.symm, hwide, hnarrow, hwords,
    fun i => ⟨fun hi => ?_, ?_⟩, ?_⟩
  · exact ⟨i / 4, by omega, by omega, by omega⟩
  · rintro ⟨k, hk, -, hi⟩
    omega
  rintro env a draft henv
  rw [← hsize, ← henv]
  exact Flat.exists_storeZero (by rw [henv, hsize]; exact hwords) a draft

/-- A struct that holds another one, which is declared later. -/
def nestedStructs : List Item :=
  [.struct ⟨"outer", [⟨"a", .bool, default⟩, ⟨"b", .struct "inner", default⟩], default⟩,
    .struct ⟨"inner", [⟨"x", .i64, default⟩, ⟨"y", .i32, default⟩], default⟩]

theorem layouts_recursive_nested :
    (∃ sl, (Program.mk nestedStructs).layouts.get? "outer" = some sl ∧ sl.size = 16 ∧
      sl.align = 8) ∧
    ∀ name, (Program.mk nestedStructs.reverse).layouts.get? name =
      (Program.mk nestedStructs).layouts.get? name := by
  have hdeclared : (Program.mk nestedStructs).symbols.FieldsDeclared := by
    intro d hd name hm
    have hall : ∀ d ∈ (Program.mk nestedStructs).structs, ∀ name ∈ Typing.fieldStructs d,
        ((Program.mk nestedStructs).symbols.struct? name).isSome = true := by decide
    exact Option.isSome_iff_exists.mp (hall d hd name hm)
  have hs : (Program.mk nestedStructs).symbols.Grounded :=
    Symbols.grounded_of_holdsItself (by decide) (by decide)
  obtain ⟨hlayouts, hperm⟩ := layouts_recursive hs hdeclared
  refine ⟨?_, hperm _ ((List.reverse_perm nestedStructs).filterMap _)⟩
  obtain ⟨sl, hget, hexact, -, -, -, hwide, -⟩ := hlayouts _ List.mem_cons_self
  refine ⟨sl, hget, (hexact (by decide)).1, hwide ⟨"inner", _, .single ⟨_, rfl, List.mem_cons_self⟩, rfl, _,
    List.mem_cons_self, rfl, rfl⟩⟩

end StructLang
