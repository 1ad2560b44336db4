import StructLang.Layout
import StructLang.Proofs.Containment

/-!
# Layouts of structs

Every struct of a program without cycles has a layout, in which each field takes the room that the
layouts give to its type. Computing a layout never meets a struct again on its way down and never runs
out of depth, because structs hold each other without a cycle.
-/

namespace StructLang

open scoped CoreNumbers

namespace Layouts

variable {s : Symbols}

/-- The room that the layouts give to a type. -/
def extentOf (l : Layouts) : Ty → Extent
  | .struct name => ((l.get? name).map StructLayout.extent).getD .unresolved
  | ty => .scalar ty

/-- A struct packed from the room of its fields. -/
def packed (l : Layouts) (d : StructDef) : StructLayout :=
  .pack d.name (d.fields.map fun f => (f, l.extentOf f.ty))

/-- The structs that a type names have layouts. -/
def Knows (l : Layouts) (ty : Ty) : Prop := ∀ name, ty = .struct name → ∃ sl, l.get? name = some sl

/-- Every layout of the first is one of the second. -/
def Le (l l' : Layouts) : Prop := ∀ name sl, l.get? name = some sl → l'.get? name = some sl

theorem Le.rfl : Le l l := fun _ _ h => h

theorem Le.trans (h : Le l l') (h' : Le l' l'') : Le l l'' := fun name sl hl => h' name sl (h name sl hl)

theorem Knows.mono (h : l.Knows ty) (hle : Le l l') : l'.Knows ty := by
  intro name hty
  obtain ⟨sl, hsl⟩ := h name hty
  exact ⟨sl, hle name sl hsl⟩

theorem extentOf_mono (hk : l.Knows ty) (h : Le l l') : l'.extentOf ty = l.extentOf ty := by
  cases ty with
  | struct name =>
    obtain ⟨sl, hsl⟩ := hk name rfl
    simp only [extentOf, hsl, h name sl hsl]
  | _ => rfl

theorem packed_mono (hk : ∀ f ∈ d.fields, l.Knows f.ty) (h : Le l l') : l'.packed d = l.packed d := by
  unfold packed
  congr 1
  exact List.map_congr_left fun f hf => by rw [extentOf_mono (hk f hf) h]

/-- Layouts that are what they should be. -/
structure Good (s : Symbols) (l : Layouts) : Prop where
  packed : ∀ name sl, l.get? name = some sl → ∃ d, s.struct? name = some d ∧ sl = l.packed d ∧
    ∀ f ∈ d.fields, l.Knows f.ty

/-- What computing a layout guarantees: old layouts stay, and new ones are of names in a set. -/
structure Grows (s : Symbols) (l l' : Layouts) (new : String → Prop) : Prop where
  good : Good s l'
  le : Le l l'
  new : ∀ name sl, l'.get? name = some sl → (∃ sl, l.get? name = some sl) ∨ new name

theorem Grows.refl {new : String → Prop} (h : Good s l) : Grows s l l new :=
  ⟨h, .rfl, fun _ sl hl => .inl ⟨sl, hl⟩⟩

theorem Grows.trans {new : String → Prop} (h : Grows s l l' new) (h' : Grows s l' l'' new') :
    Grows s l l'' fun name => new name ∨ new' name := by
  refine ⟨h'.good, h.le.trans h'.le, fun name sl hl => ?_⟩
  rcases h'.new name sl hl with ⟨sl', hl'⟩ | hn
  · exact (h.new name sl' hl').imp_right .inl
  · exact .inr (.inr hn)

theorem Grows.mono {new : String → Prop} (h : Grows s l l' new)
    (hn : ∀ name, new name → new' name) : Grows s l l' new' :=
  ⟨h.good, h.le, fun name sl hl => (h.new name sl hl).imp_right (hn name)⟩

theorem get?_insert (l : Layouts) (sl : StructLayout) (name : String) :
    (l.insert sl).get? name = if sl.name = name then some sl else l.get? name := by
  simp only [get?, insert, List.find?_cons]
  split <;> simp_all

theorem Grows.insert (hg : Good s l) (hd : s.struct? d.name = some d)
    (hnone : l.get? d.name = none) (hk : ∀ f ∈ d.fields, l.Knows f.ty) :
    Grows s l (l.insert (l.packed d)) fun name => name = d.name := by
  have hget : ∀ name, (l.insert (l.packed d)).get? name =
      if d.name = name then some (l.packed d) else l.get? name := get?_insert l _
  have hle : Le l (l.insert (l.packed d)) := by
    intro name sl hl
    rw [hget, if_neg, hl]
    rintro rfl
    rw [hnone] at hl
    cases hl
  refine ⟨⟨fun name sl hl => ?_⟩, hle, fun name sl hl => ?_⟩ <;> rw [hget] at hl <;> split at hl
  · next heq =>
    cases hl
    exact ⟨d, heq ▸ hd, (packed_mono hk hle).symm, fun f hf => (hk f hf).mono hle⟩
  · obtain ⟨d', hd', hsl, hk'⟩ := hg.packed name sl hl
    exact ⟨d', hd', hsl.trans (packed_mono hk' hle).symm, fun f hf => (hk' f hf).mono hle⟩
  · next heq => exact .inr heq.symm
  · exact .inl ⟨sl, hl⟩

/-! ## Measuring -/

/-- What measuring a struct guarantees. -/
def Measures (s : Symbols) (name : String) (l : Layouts) (r : Extent × Layouts) : Prop :=
  Grows s l r.2 (Relation.ReflTransGen s.Holds name) ∧
    ∃ sl, r.2.get? name = some sl ∧ r.1 = sl.extent

theorem measureFields_spec {inner : String → Layouts → Extent × Layouts}
    (hinner : ∀ f ∈ fields, ∀ name, f.ty = .struct name → ∀ l, Good s l →
      Measures s name l (inner name l))
    (hg : Good s l) : Grows s l (measureFields inner fields l).2 (fun name =>
        ∃ f ∈ fields, ∃ m, f.ty = .struct m ∧ Relation.ReflTransGen s.Holds m name) ∧
      (∀ f ∈ fields, (measureFields inner fields l).2.Knows f.ty) ∧
      (measureFields inner fields l).1 =
        fields.map fun f => (f, (measureFields inner fields l).2.extentOf f.ty) := by
  induction fields generalizing l with
  | nil => exact ⟨.refl hg, by simp, rfl⟩
  | cons f rest ih =>
    obtain ⟨hf, hrest⟩ := List.forall_mem_cons.mp hinner
    -- the first field: its room, and the layouts that are known then
    obtain ⟨e, l1, heq, hgrow, hk, he⟩ : ∃ e l1, measureFields inner (f :: rest) l =
        ((f, e) :: (measureFields inner rest l1).1, (measureFields inner rest l1).2) ∧
        Grows s l l1 (fun name => ∃ m, f.ty = .struct m ∧ Relation.ReflTransGen s.Holds m name) ∧
        l1.Knows f.ty ∧ e = l1.extentOf f.ty := by
      cases hty : f.ty with
      | struct name =>
        obtain ⟨hgrow, sl, hsl, hext⟩ := hf name hty l hg
        refine ⟨(inner name l).1, (inner name l).2, by simp only [measureFields, hty],
          hgrow.mono fun n hn => ⟨name, rfl, hn⟩, ?_, ?_⟩
        · rintro _ ⟨⟩
          exact ⟨sl, hsl⟩
        · simp only [extentOf, hsl, Option.map_some, Option.getD_some, hext]
      | _ => exact ⟨_, l, by simp only [measureFields, hty]; rfl, .refl hg, (fun _ h => by cases h), rfl⟩
    obtain ⟨hgrow', hk', hmap⟩ := ih hrest hgrow.good
    rw [heq]
    refine ⟨(hgrow.trans hgrow').mono ?_, List.forall_mem_cons.mpr ⟨hk.mono hgrow'.le, hk'⟩, ?_⟩
    · rintro name (⟨m, hm, hway⟩ | ⟨g, hg, m, hm, hway⟩)
      · exact ⟨f, List.mem_cons_self, m, hm, hway⟩
      · exact ⟨g, List.mem_cons_of_mem _ hg, m, hm, hway⟩
    · rw [List.map_cons, he, ← extentOf_mono hk hgrow'.le, ← hmap]

/-- A declared name is found from the end as well. -/
theorem findRev?_name (hs : s.Grounded) (hd : s.struct? name = some d) :
    (s.structs.findRev? fun d => d.name == name) = some d := by
  rw [List.findRev?_eq_find?_reverse]
  obtain ⟨hds, rfl⟩ := Symbols.struct?_eq_some hd
  cases h : s.structs.reverse.find? fun d' => d'.name == d.name with
  | none => simpa using List.find?_eq_none.mp h d (List.mem_reverse.mpr hds)
  | some d' =>
    have hd' := List.mem_reverse.mp (List.mem_of_find?_eq_some h)
    have hname : d'.name = d.name := by simpa using List.find?_some h
    rw [List.inj_on_of_nodup_map hs.nodup hd' hds hname]

/-- Measuring a struct gives it the layout that it should have. `visiting` is the way to it, and the
depth and its length add up to the number of structs. -/
theorem measure_spec (hs : s.Grounded) (hdeclared : s.FieldsDeclared)
    (hway : s.Way (d.name :: visiting)) (hd : s.struct? d.name = some d)
    (hdepth : s.structs.length ≤ depth + visiting.length) (hg : Good s l) :
    Measures s d.name l (measure s.structs depth visiting d l) := by
  induction depth generalizing visiting d l with
  | zero =>
    have := hs.length_way hway
    simp only [List.length_cons] at this
    omega
  | succ depth ih =>
    cases hget : l.get? d.name with
    | some sl =>
      unfold measure
      rw [hget]
      exact ⟨.refl hg, sl, hget, rfl⟩
    | none =>
      have hfresh : visiting.contains d.name = false := by
        simpa using (List.nodup_cons.mp (hs.nodup_way hway)).1
      obtain ⟨inner, hinner, hmeasure⟩ : ∃ inner : String → Layouts → Extent × Layouts,
          (∀ name d', (s.structs.findRev? fun d => d.name == name) = some d' →
            ∀ l, inner name l = measure s.structs depth (d.name :: visiting) d' l) ∧
          measure s.structs (depth + 1) visiting d l =
            ((StructLayout.pack d.name (measureFields inner d.fields l).1).extent,
              (measureFields inner d.fields l).2.insert
                (StructLayout.pack d.name (measureFields inner d.fields l).1)) := by
        refine ⟨_, ?_, by
          rw [measure, hget]
          simp only [hfresh, Bool.false_eq_true, if_false]
          rfl⟩
        intro name d' hd' l
        simp only [hd']
      have hfields : ∀ f ∈ d.fields, ∀ name, f.ty = .struct name →
          ∀ l, Good s l → Measures s name l (inner name l) := by
        intro f hf name hty l hg
        have hm : name ∈ Typing.fieldStructs d := Typing.mem_fieldStructs.mpr ⟨f, hf, hty⟩
        obtain ⟨d', hd'⟩ := hdeclared d (Symbols.struct?_eq_some hd).1 name hm
        have hname := (Symbols.struct?_eq_some hd').2
        rw [hinner name d' (findRev?_name hs hd'), ← hname]
        refine ih ?_ (hname ▸ hd') (by simp only [List.length_cons]; omega) hg
        rw [hname]
        exact .cons hway ⟨d, hd, hm⟩ hd'
      obtain ⟨hgrow, hk, hmap⟩ := measureFields_spec hfields hg
      rw [hmeasure]
      generalize measureFields inner d.fields l = r at hgrow hk hmap
      obtain ⟨fields, l1⟩ := r
      dsimp only at hgrow hk hmap
      -- the struct itself cannot have been measured on the way, as it would hold itself
      have hnone : l1.get? d.name = none := by
        cases h1 : l1.get? d.name with
        | none => rfl
        | some sl =>
          rcases hgrow.new d.name sl h1 with ⟨sl', hsl'⟩ | ⟨f, hf, m, hm, hback⟩
          · rw [hget] at hsl'
            cases hsl'
          · have hstep : s.Holds d.name m := ⟨d, hd, Typing.mem_fieldStructs.mpr ⟨f, hf, hm⟩⟩
            exact absurd (Relation.TransGen.head' hstep hback) (hs.acyclic d.name)
      have hpack : StructLayout.pack d.name fields = l1.packed d := by rw [packed, hmap]
      simp only [hpack]
      refine ⟨(hgrow.trans (.insert hgrow.good hd hnone hk)).mono ?_, l1.packed d, ?_, rfl⟩
      · rintro name (⟨f, hf, m, hm, hback⟩ | rfl)
        · exact hback.head ⟨d, hd, Typing.mem_fieldStructs.mpr ⟨f, hf, hm⟩⟩
        · exact .refl
      · rw [get?_insert]
        exact if_pos rfl

end Layouts

open Layouts in
/-- The layouts of a program without cycles: every struct has one, packed from the room of its fields. -/
theorem Program.good_layouts {p : Program} (hs : p.symbols.Grounded)
    (hdeclared : p.symbols.FieldsDeclared) :
    Good p.symbols p.layouts ∧ ∀ d ∈ p.structs, ∃ sl, p.layouts.get? d.name = some sl := by
  have hfold : ∀ (ds : List StructDef) (l : Layouts), (∀ d ∈ ds, d ∈ p.structs) →
      Good p.symbols l →
      let r := ds.foldl (fun l d => (measure p.structs p.structs.length [] d l).2) l
      Good p.symbols r ∧ Le l r ∧ ∀ d ∈ ds, ∃ sl, r.get? d.name = some sl := by
    intro ds
    induction ds with
    | nil => exact fun l _ hg => ⟨hg, .rfl, by simp⟩
    | cons d ds ih =>
      intro l hds hg
      obtain ⟨hd, hds⟩ := List.forall_mem_cons.mp hds
      have hd' := Symbols.struct?_name hs.nodup hd
      obtain ⟨hgrow, sl, hsl, -⟩ := measure_spec hs hdeclared (.single hd') hd' (Nat.le_refl _) hg
      obtain ⟨hgood, hle, hall⟩ := ih _ hds hgrow.good
      exact ⟨hgood, hgrow.le.trans hle, List.forall_mem_cons.mpr ⟨⟨sl, hle _ _ hsl⟩, hall⟩⟩
  have := hfold p.structs ⟨[], p.structs.map StructDef.name⟩ (fun _ => id) ⟨nofun⟩
  exact ⟨this.1, this.2.2⟩

/-- The layout under a name is that of the struct that the name means. -/
theorem Program.get?_layouts {p : Program} (hs : p.symbols.Grounded)
    (hdeclared : p.symbols.FieldsDeclared) (name : String) :
    p.layouts.get? name = (p.symbols.struct? name).map p.layouts.packed := by
  obtain ⟨hgood, hall⟩ := p.good_layouts hs hdeclared
  cases hd : p.symbols.struct? name with
  | none =>
    rw [Option.map_none, Option.eq_none_iff_forall_ne_some]
    intro sl hsl
    obtain ⟨d, hd', -⟩ := hgood.packed name sl hsl
    rw [hd] at hd'
    cases hd'
  | some d =>
    obtain ⟨hds, hname⟩ := Symbols.struct?_eq_some hd
    obtain ⟨sl, hsl⟩ := hall d hds
    rw [hname] at hsl
    obtain ⟨d', hd', rfl, -⟩ := hgood.packed name sl hsl
    rw [hsl, Option.some.inj (hd.symm.trans hd'), Option.map_some]

namespace Layouts

variable {l : Layouts}

theorem size_extentOf (l : Layouts) (ty : Ty) : (l.extentOf ty).size = l.sizeOf ty := by
  cases ty with
  | struct name =>
    simp only [extentOf, sizeOf, Ty.structName?, Option.bind_some]
    cases l.get? name <;> rfl
  | _ => rfl

/-- Bytes of the fields before a position. -/
def offsetOf (l : Layouts) (d : StructDef) (index : Nat) : Nat :=
  ((d.fields.take index).map fun f => l.sizeOf f.ty).sum

theorem size_packed (l : Layouts) (d : StructDef) :
    (l.packed d).size = (d.fields.map fun f => l.sizeOf f.ty).sum % 2 ^ (64 : Nat) := by
  suffices h : ∀ (fields : List TypedName) (offset : Nat),
      (fields.map fun f => (f, l.extentOf f.ty)).foldl (fun o p => Extent.advance o p.2.size)
        (offset % 2 ^ (64 : Nat)) = (offset + (fields.map fun f => l.sizeOf f.ty).sum) % 2 ^ (64 : Nat) from
    (h d.fields 0).trans (by rw [Nat.zero_add])
  intro fields
  induction fields with
  | nil => exact fun offset => rfl
  | cons f rest ih =>
    intro offset
    rw [List.map_cons, List.foldl_cons, Extent.advance, Nat.mod_add_mod, ih, l.size_extentOf,
      List.map_cons, List.sum_cons, Nat.add_assoc]

/-- The fields of a packed struct from an offset on: each takes the room of its type. -/
theorem place_map (l : Layouts) (offset : Nat) (fields : List TypedName) :
    StructLayout.place (offset % 2 ^ (64 : Nat)) (fields.map fun f => (f, l.extentOf f.ty)) =
      fields.mapIdx fun i f => ⟨f.name, f.ty,
        (offset + ((fields.take i).map fun f => l.sizeOf f.ty).sum) % 2 ^ (64 : Nat), l.sizeOf f.ty⟩ := by
  induction fields generalizing offset with
  | nil => rfl
  | cons f rest ih =>
    simp only [List.map_cons, StructLayout.place, Extent.advance, Nat.mod_add_mod, ih, List.mapIdx_cons,
      List.take_zero, List.map_nil, List.sum_nil, Nat.add_zero, l.size_extentOf, List.take_succ_cons,
      List.sum_cons, Nat.add_assoc]

theorem fields_packed (l : Layouts) (d : StructDef) :
    (l.packed d).fields = d.fields.mapIdx fun i f =>
      ⟨f.name, f.ty, l.offsetOf d i % 2 ^ (64 : Nat), l.sizeOf f.ty⟩ := by
  have h := place_map l 0 d.fields
  simp only [Nat.zero_add] at h
  exact h

theorem offsetOf_le (l : Layouts) (d : StructDef) (index : Nat) :
    l.offsetOf d index ≤ (d.fields.map fun f => l.sizeOf f.ty).sum := by
  conv_rhs => rw [← List.take_append_drop index d.fields, List.map_append, List.sum_append]
  exact Nat.le_add_right _ _

/-- Nothing wraps around where the fields together take less than `2 ^ 64` bytes. -/
theorem packed_exact (h : (d.fields.map fun f => l.sizeOf f.ty).sum < 2 ^ (64 : Nat)) :
    (l.packed d).size = (d.fields.map fun f => l.sizeOf f.ty).sum ∧
      (l.packed d).fields = d.fields.mapIdx fun i f =>
        ⟨f.name, f.ty, l.offsetOf d i, l.sizeOf f.ty⟩ := by
  rw [l.size_packed, Nat.mod_eq_of_lt h, l.fields_packed]
  refine ⟨rfl, congrArg (List.mapIdx · d.fields) (funext fun i => ?_)⟩
  rw [Nat.mod_eq_of_lt (Nat.lt_of_le_of_lt (l.offsetOf_le d i) h)]

/-- A field lies at its offset. -/
theorem offset?_packed (h : d.field? member = some (index, g)) :
    (l.packed d).offset? member = some (l.offsetOf d index % 2 ^ (64 : Nat)) := by
  simp only [StructDef.field?, Option.map_eq_some_iff, Prod.mk.injEq] at h
  obtain ⟨⟨g', index'⟩, hfind, rfl, rfl⟩ := h
  have hzip : (l.packed d).fields.zipIdx = d.fields.zipIdx.map fun p =>
      (⟨p.1.name, p.1.ty, l.offsetOf d p.2 % 2 ^ (64 : Nat), l.sizeOf p.1.ty⟩, p.2) := by
    rw [fields_packed]
    apply List.ext_getElem?
    intro i
    simp only [List.getElem?_zipIdx, List.getElem?_mapIdx, List.getElem?_map]
    cases d.fields[i]? <;> simp
  simp only [StructLayout.offset?, StructLayout.field?, hzip, List.find?_map, Option.map_map]
  rw [show ((fun p : FieldLayout × Nat => p.1.name == member) ∘ fun p : TypedName × Nat =>
    (⟨p.1.name, p.1.ty, l.offsetOf d p.2 % 2 ^ (64 : Nat), l.sizeOf p.1.ty⟩, p.2)) =
      fun p : TypedName × Nat => p.1.name == member from rfl, hfind]
  rfl

end Layouts

/-- The fields of every struct together take less than `2 ^ 64` bytes, so no sum of sizes wraps around. -/
def Program.SizesFit (p : Program) : Prop :=
  ∀ d ∈ p.structs, (d.fields.map fun f => p.layouts.sizeOf f.ty).sum < 2 ^ (64 : Nat)

instance (p : Program) : Decidable p.SizesFit :=
  inferInstanceAs (Decidable (∀ d ∈ p.structs, _))

/-- A declared struct of an accepted program has its layout. -/
theorem Program.WellTyped.layout {p : Program} (h : p.WellTyped)
    (hd : p.symbols.struct? name = some d) : p.layouts.get? name = some (p.layouts.packed d) := by
  rw [p.get?_layouts h.grounded h.symbols.fieldsDeclared, hd]
  rfl

end StructLang
