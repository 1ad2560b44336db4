import Mathlib.Data.List.Nodup
import Mathlib.Data.List.Perm.Subperm
import Mathlib.Logic.Relation
import StructLang.Proofs.Typing

/-!
# Structs in structs

An accepted program has no struct that holds itself, directly or through others. So a way down from
struct to struct meets no name twice and is no longer than there are structs, which is why the
depth-bounded computations over structs are never cut short.
-/

namespace StructLang

def Symbols.Holds (s : Symbols) (outer inner : String) : Prop :=
  ∃ d, s.struct? outer = some d ∧ inner ∈ Typing.fieldStructs d

namespace Typing

theorem mem_fieldStructs : name ∈ fieldStructs d ↔ ∃ f ∈ d.fields, f.ty = .struct name := by
  simp only [fieldStructs, List.mem_filterMap]
  refine exists_congr fun f => and_congr_right fun _ => ?_
  cases f.ty <;> simp [Ty.structName?]

/-! ## The search finds what it looks for -/

/-- Structs that only hold each other and of which none holds the target. -/
structure Avoids (s : Symbols) (target : String) (set : List StructDef) : Prop where
  target : ∀ d ∈ set, target ∉ fieldStructs d
  closed : ∀ d ∈ set, ∀ name ∈ fieldStructs d, ∀ d', s.struct? name = some d' → d' ∈ set

def unvisited (s : Symbols) (visited : List String) : List String :=
  (s.structs.map StructDef.name).filter fun name => !visited.contains name

private theorem nodup_eraseDups (xs : List String) : xs.eraseDups.Nodup := by
  match xs with
  | [] => simp
  | x :: xs =>
    rw [List.eraseDups_cons, List.nodup_cons]
    refine ⟨?_, nodup_eraseDups _⟩
    rw [List.mem_eraseDups, List.mem_filter]
    simp
termination_by xs.length
decreasing_by exact Nat.lt_succ_of_le (List.length_filter_le ..)

private theorem map_name_filterMap (s : Symbols) (names : List String) :
    (names.filterMap s.struct?).map StructDef.name =
      names.filter fun name => (s.struct? name).isSome := by
  induction names with
  | nil => rfl
  | cons name rest ih =>
    cases h : s.struct? name with
    | none => simp [h, ih]
    | some d => simp [h, ih, (Symbols.struct?_eq_some h).2]

theorem mem_unvisited :
    name ∈ unvisited s visited ↔ name ∈ s.structs.map StructDef.name ∧ name ∉ visited := by
  simp [unvisited]

theorem length_unvisited (hn : (s.structs.map StructDef.name).Nodup)
    (hf : fresh.Nodup) (hv : ∀ name ∈ fresh, name ∉ visited) :
    (fresh.filterMap s.struct?).length + (unvisited s (fresh ++ visited)).length
      ≤ (unvisited s visited).length := by
  rw [← List.length_map StructDef.name, map_name_filterMap, ← List.length_append]
  refine (List.Nodup.subperm ?_ ?_).length_le
  · refine List.nodup_append.mpr ⟨hf.filter _, hn.filter _, ?_⟩
    rintro a ha b hb rfl
    exact (mem_unvisited.mp hb).2 (List.mem_append_left _ (List.mem_filter.mp ha).1)
  · intro name hm
    rw [mem_unvisited]
    rcases List.mem_append.mp hm with hm | hm
    · obtain ⟨hm, hd⟩ := List.mem_filter.mp hm
      obtain ⟨d, hd⟩ := Option.isSome_iff_exists.mp hd
      obtain ⟨hds, rfl⟩ := Symbols.struct?_eq_some hd
      exact ⟨List.mem_map_of_mem hds, hv _ hm⟩
    · obtain ⟨hm, hnv⟩ := mem_unvisited.mp hm
      exact ⟨hm, fun h => hnv (List.mem_append_right _ h)⟩

/-- A search that fails has walked through a closed set of structs. `done` are the structs that it has
looked at, and `visited` the names that it has met. -/
theorem exists_avoids (hn : (s.structs.map StructDef.name).Nodup) {done : List StructDef}
    (hbound : pending.length + (unvisited s visited).length ≤ steps)
    (hdone : ∀ d ∈ done, target ∉ fieldStructs d ∧ ∀ name ∈ fieldStructs d, name ∈ visited)
    (hvisited : ∀ name ∈ visited, ∀ d, s.struct? name = some d → d ∈ done ∨ d ∈ pending)
    (h : holds s target steps visited pending = false) :
    ∃ set, Avoids s target set ∧ (∀ d ∈ done, d ∈ set) ∧ ∀ d ∈ pending, d ∈ set := by
  induction steps generalizing visited pending done with
  | zero =>
    obtain rfl : pending = [] := List.length_eq_zero_iff.mp (by omega)
    refine ⟨done, ⟨fun d hd => (hdone d hd).1, fun d hd name hm d' hd' => ?_⟩, fun _ => id, by simp⟩
    exact (hvisited name ((hdone d hd).2 name hm) d' hd').resolve_right (by simp)
  | succ steps ih =>
    cases pending with
    | nil =>
      refine ⟨done, ⟨fun d hd => (hdone d hd).1, fun d hd name hm d' hd' => ?_⟩, fun _ => id, by simp⟩
      exact (hvisited name ((hdone d hd).2 name hm) d' hd').resolve_right (by simp)
    | cons d rest =>
      rw [holds, Bool.or_eq_false_iff] at h
      obtain ⟨htarget, h⟩ := h
      generalize hfresh :
        ((fieldStructs d).filter fun name => !visited.contains name).eraseDups = fresh at h
      have hmem : ∀ name, name ∈ fresh ↔ name ∈ fieldStructs d ∧ name ∉ visited := by
        intro name
        rw [← hfresh, List.mem_eraseDups, List.mem_filter]
        simp
      have hlength := length_unvisited hn (hfresh ▸ nodup_eraseDups _)
        fun name hm => ((hmem name).mp hm).2
      have hbound' : (fresh.filterMap s.struct? ++ rest).length
          + (unvisited s (fresh ++ visited)).length ≤ steps := by
        simp only [List.length_append, List.length_cons] at hbound ⊢
        omega
      have hdone' : ∀ d' ∈ d :: done, target ∉ fieldStructs d' ∧
          ∀ name ∈ fieldStructs d', name ∈ fresh ++ visited := by
        rw [List.forall_mem_cons]
        refine ⟨⟨by simpa using htarget, fun name hm => ?_⟩, fun d' hd' => ?_⟩
        · rw [List.mem_append, hmem]
          exact (Classical.em (name ∈ visited)).elim .inr fun hv => .inl ⟨hm, hv⟩
        · exact ⟨(hdone d' hd').1, fun name hm => List.mem_append_right _ ((hdone d' hd').2 name hm)⟩
      have hvisited' : ∀ name ∈ fresh ++ visited, ∀ d', s.struct? name = some d' →
          d' ∈ d :: done ∨ d' ∈ fresh.filterMap s.struct? ++ rest := by
        intro name hm d' hd'
        rw [List.mem_append, List.mem_cons, List.mem_filterMap]
        rcases List.mem_append.mp hm with hm | hm
        · exact .inr (.inl ⟨name, hm, hd'⟩)
        · rcases hvisited name hm d' hd' with h | h
          · exact .inl (.inr h)
          · exact (List.mem_cons.mp h).elim (fun h => .inl (.inl h)) fun h => .inr (.inr h)
      obtain ⟨set, havoid, hset, hpending⟩ := ih hbound' hdone' hvisited' h
      obtain ⟨hd, hset⟩ := List.forall_mem_cons.mp hset
      refine ⟨set, havoid, hset, List.forall_mem_cons.mpr ⟨hd, fun d' hd' => ?_⟩⟩
      exact hpending d' (List.mem_append_right _ hd')

end Typing

/-! ## No way leads back -/

namespace Symbols

variable {s : Symbols}

theorem struct?_name (hn : (s.structs.map StructDef.name).Nodup) (hd : d ∈ s.structs) :
    s.struct? d.name = some d := by
  cases h : s.struct? d.name with
  | none =>
    have := List.find?_eq_none.mp h d hd
    simp at this
  | some d' =>
    obtain ⟨hd', hname⟩ := struct?_eq_some h
    rw [List.inj_on_of_nodup_map hn hd' hd hname]

/-- A struct that the search clears holds itself in no way. -/
theorem not_holds_self (hn : (s.structs.map StructDef.name).Nodup) (hd : s.struct? name = some d)
     (hsteps : s.structs.length < steps)
    (h : Typing.holds s name steps [] [d] = false) : ¬Relation.TransGen s.Holds name name := by
  have hbound : [d].length + (Typing.unvisited s []).length ≤ steps := by
    have := List.length_filter_le (fun name => !([] : List String).contains name)
      (s.structs.map StructDef.name)
    simp only [Typing.unvisited, List.length_map, List.length_singleton] at this ⊢
    omega
  obtain ⟨set, havoid, -, hset⟩ : ∃ set, Typing.Avoids s name set ∧
      (∀ d' ∈ [], d' ∈ set) ∧ ∀ d' ∈ [d], d' ∈ set :=
    Typing.exists_avoids hn hbound (by simp) (by simp) h
  -- every struct on a way from the name lies in the set, and no member of it holds the name
  have hway : ∀ inner, Relation.TransGen s.Holds name inner → inner ≠ name ∧
      ∀ d', s.struct? inner = some d' → d' ∈ set := by
    intro inner hway
    induction hway with
    | single hstep =>
      obtain ⟨d0, hd0, hm⟩ := hstep
      obtain rfl : d = d0 := Option.some.inj (hd.symm.trans hd0)
      have hd := hset d List.mem_cons_self
      exact ⟨fun heq => havoid.target d hd (heq ▸ hm), havoid.closed d hd _ hm⟩
    | tail _ hstep ih =>
      obtain ⟨d0, hd0, hm⟩ := hstep
      have hd := ih.2 d0 hd0
      exact ⟨fun heq => havoid.target d0 hd (heq ▸ hm), havoid.closed d0 hd _ hm⟩
  exact fun h => (hway name h).1 rfl

theorem transGen_of_holds
    (hpending : ∀ d ∈ pending, ∃ name, s.struct? name = some d ∧
      Relation.ReflTransGen s.Holds start name)
    (h : Typing.holds s target steps visited pending = true) :
    Relation.TransGen s.Holds start target := by
  induction steps generalizing visited pending with
  | zero => simp [Typing.holds] at h
  | succ steps ih =>
    cases pending with
    | nil => simp [Typing.holds] at h
    | cons d rest =>
      obtain ⟨⟨name, hd, hway⟩, hrest⟩ := List.forall_mem_cons.mp hpending
      rw [Typing.holds, Bool.or_eq_true, List.contains_iff_mem] at h
      rcases h with htarget | h
      · exact .tail' hway ⟨d, hd, htarget⟩
      · refine ih (List.forall_mem_append.mpr ⟨fun d' hd' => ?_, hrest⟩) h
        obtain ⟨inner, hinner, hd'⟩ := List.mem_filterMap.mp hd'
        rw [List.mem_eraseDups, List.mem_filter] at hinner
        exact ⟨inner, hd', hway.tail ⟨d, hd, hinner.1⟩⟩

theorem holds_iff (hn : (s.structs.map StructDef.name).Nodup) (hd : s.struct? name = some d)
    (hsteps : s.structs.length < steps) :
    Typing.holds s name steps [] [d] = true ↔ Relation.TransGen s.Holds name name := by
  refine ⟨fun h => transGen_of_holds (by simpa using ⟨name, hd, .refl⟩) h, fun hcycle => ?_⟩
  by_contra h
  exact not_holds_self hn hd hsteps (Bool.eq_false_iff.mpr h) hcycle

/-- Declared structs without a cycle. -/
structure Grounded (s : Symbols) : Prop where
  nodup : (s.structs.map StructDef.name).Nodup
  acyclic : ∀ name, ¬Relation.TransGen s.Holds name name

def FieldsDeclared (s : Symbols) : Prop :=
  ∀ d ∈ s.structs, ∀ name ∈ Typing.fieldStructs d, ∃ d', s.struct? name = some d'

/-- A way down through declared structs, the innermost first. -/
inductive Way (s : Symbols) : List String → Prop where
  | single {name d} (hd : s.struct? name = some d) : Way s [name]
  | cons {inner outer path d} (h : Way s (outer :: path)) (ho : s.Holds outer inner)
      (hd : s.struct? inner = some d) : Way s (inner :: outer :: path)

namespace Way

theorem declared (h : Way s path) : ∀ name ∈ path, ∃ d, s.struct? name = some d := by
  induction h with
  | single hd => simpa using ⟨_, hd⟩
  | cons _ _ hd ih => exact List.forall_mem_cons.mpr ⟨⟨_, hd⟩, ih⟩

theorem holds (h : Way s (name :: path)) : ∀ outer ∈ path, Relation.TransGen s.Holds outer name := by
  induction path generalizing name with
  | nil => simp
  | cons outer path ih =>
    cases h with
    | cons h ho _ =>
      rw [List.forall_mem_cons]
      exact ⟨.single ho, fun o hm => (ih h o hm).tail ho⟩

theorem tail (h : Way s (name :: outer :: path)) : Way s (outer :: path) := by
  cases h with
  | cons h _ _ => exact h

end Way

namespace Grounded

variable (hs : s.Grounded)
include hs

theorem nodup_way (h : Way s path) : path.Nodup := by
  induction path with
  | nil => exact .nil
  | cons name path ih =>
    refine List.nodup_cons.mpr ⟨fun hm => hs.acyclic name (h.holds name hm), ?_⟩
    cases path with
    | nil => exact .nil
    | cons outer path => exact ih h.tail

theorem length_way (h : Way s path) : path.length ≤ s.structs.length := by
  rw [← List.length_map StructDef.name]
  refine ((hs.nodup_way h).subperm fun name hm => ?_).length_le
  obtain ⟨d, hd⟩ := h.declared name hm
  obtain ⟨hds, rfl⟩ := struct?_eq_some hd
  exact List.mem_map_of_mem hds

/-- There is no endless way down, so that what follows for a struct from the structs that it holds is
true of all. -/
theorem wellFounded : WellFounded fun inner outer => s.Holds outer inner := by
  have hway : ∀ depth path name, s.Way (name :: path) → s.structs.length ≤ depth + path.length →
      Acc (fun inner outer => s.Holds outer inner) name := by
    intro depth
    induction depth with
    | zero =>
      intro path name h hdepth
      have hlength := hs.length_way h
      rw [List.length_cons] at hlength
      omega
    | succ depth ih =>
      refine fun path name h hdepth => ⟨_, fun inner hinner => ?_⟩
      cases hd : s.struct? inner with
      | none =>
        refine ⟨_, fun _ hnone => ?_⟩
        obtain ⟨d, hd', -⟩ := hnone
        rw [hd] at hd'
        cases hd'
      | some d => exact ih _ inner (.cons h hinner hd) (by rw [List.length_cons]; omega)
  refine ⟨fun name => ⟨_, fun inner hinner => ?_⟩⟩
  obtain ⟨d, hd, hm⟩ := hinner
  exact (hway s.structs.length [] name (.single hd) (Nat.le_refl _)).inv ⟨d, hd, hm⟩

end Grounded

end Symbols

theorem Symbols.Sound.fieldsDeclared {s : Symbols} (h : s.Sound) : s.FieldsDeclared := by
  intro d hd name hm
  obtain ⟨f, hf, hty⟩ := Typing.mem_fieldStructs.mp hm
  exact (h.fields d hd f hf).1.struct name hty

theorem Symbols.grounded_of_holdsItself (hn : (s.structs.map StructDef.name).Nodup)
    (h : ∀ d ∈ s.structs, Typing.holdsItself s d = false) : s.Grounded := by
  refine ⟨hn, fun name hcycle => ?_⟩
  obtain ⟨_, ⟨d, hd, -⟩, -⟩ := Relation.TransGen.head'_iff.mp hcycle
  obtain ⟨hds, rfl⟩ := struct?_eq_some hd
  exact not_holds_self hn hd (Nat.lt_succ_self _) (h d hds) hcycle

theorem Program.WellTyped.grounded {p : Program} (h : p.WellTyped) : p.symbols.Grounded :=
  Symbols.grounded_of_holdsItself h.structs_nodup h.acyclic

end StructLang
