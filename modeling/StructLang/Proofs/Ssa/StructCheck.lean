import StructLang.Proofs.Containment
import StructLang.Proofs.DuplicateReports
import StructLang.Proofs.Ssa.Totality

/-!
# The two searches for structs that hold themselves agree

Checking a program searches from each struct for the struct itself, with a worklist. Checking a module
visits its struct types depth first and keeps those that are done between visits. Both decide whether
there is a way from a struct back to it, and neither is cut short by its bound.
-/

namespace StructLang.Ssa

open Relation (TransGen ReflTransGen)

/-! ## Visits -/

def Module.Holds (m : Module) (outer inner : String) : Prop :=
  inner ∈ ((m.struct? outer).map Struct.inner).getD []

section

variable {m : Module} {path : List String}

theorem Module.Holds.exists_struct {outer inner : String} (h : m.Holds outer inner) :
    ∃ s ∈ m.structs, s.name = outer := by
  unfold Module.Holds at h
  cases hs : m.struct? outer with
  | none => simp [hs] at h
  | some s => exact ⟨s, List.mem_of_find?_eq_some hs, by simpa using List.find?_some hs⟩

theorem length_le_structs (hpath : path.Nodup) (hheld : ∀ outer ∈ path, ∃ inner, m.Holds outer inner) :
    path.length ≤ m.structs.length := by
  rw [← List.length_map Struct.name]
  refine (hpath.subperm fun name hm => ?_).length_le
  obtain ⟨inner, hinner⟩ := hheld name hm
  obtain ⟨s, hs, rfl⟩ := hinner.exists_struct
  exact List.mem_map_of_mem hs

theorem visit_done (hdone : name ∈ done) : visit m depth path done name = .ok done := by
  cases depth <;> rw [visit] <;> simp [hdone]

theorem visit_met (hdone : name ∉ done) (hpath : name ∈ path) :
    visit m depth path done name = .error name := by
  cases depth <;> rw [visit] <;> simp [hdone, hpath]

theorem visit_succ (hdone : name ∉ done) (hpath : name ∉ path) : visit m (depth + 1) path done name =
    (((m.struct? name).map Struct.inner).getD []).foldlM (visit m depth (name :: path)) done >>=
      fun done => pure (name :: done) := by
  rw [visit]
  simp [hdone, hpath]

theorem visit_depth (hpath : path.Nodup) (hheld : ∀ outer ∈ path, ∃ inner, m.Holds outer inner)
    (hdepth : m.structs.length < depth + path.length) :
    visit m (depth + 1) path done name = visit m depth path done name := by
  induction depth generalizing path done name with
  | zero =>
    have := length_le_structs hpath hheld
    omega
  | succ depth ih =>
    by_cases hdone : name ∈ done
    · rw [visit_done hdone, visit_done hdone]
    by_cases hnew : name ∈ path
    · rw [visit_met hdone hnew, visit_met hdone hnew]
    rw [visit_succ hdone hnew, visit_succ hdone hnew]
    cases hinner : ((m.struct? name).map Struct.inner).getD [] with
    | nil => rfl
    | cons inner rest =>
      have hholds : ∃ inner, m.Holds name inner :=
        ⟨inner, by rw [Module.Holds, hinner]; exact List.mem_cons_self⟩
      have hsame : visit m (depth + 1) (name :: path) = visit m depth (name :: path) := by
        funext done inner
        refine ih (List.nodup_cons.mpr ⟨hnew, hpath⟩) (List.forall_mem_cons.mpr ⟨hholds, hheld⟩) ?_
        rw [List.length_cons]
        omega
      rw [hsame]

theorem exists_of_foldlM_eq_error {α β ε : Type} {g : β → α → Except ε β} {xs : List α} {b : β} {e : ε}
    (h : xs.foldlM g b = .error e) : ∃ x ∈ xs, ∃ b, g b x = .error e := by
  induction xs generalizing b with
  | nil => cases h
  | cons x xs ih =>
    rw [List.foldlM_cons] at h
    cases hx : g b x with
    | error e' =>
      rw [hx] at h
      cases h
      exact ⟨x, List.mem_cons_self, b, hx⟩
    | ok b' =>
      rw [hx] at h
      obtain ⟨y, hy, hb⟩ := ih h
      exact ⟨y, List.mem_cons_of_mem _ hy, hb⟩

/-- A visit that fails has found a struct type that holds itself, as all names on the path lead to the
one that it meets again. -/
theorem transGen_of_visit (hpath : ∀ outer ∈ path, TransGen m.Holds outer name)
    (h : visit m depth path done name = .error e) : TransGen m.Holds e e := by
  induction depth generalizing path done name with
  | zero =>
    rw [visit] at h
    split at h
    · cases h
    · split at h
      · next hmet =>
        cases h
        exact hpath _ (List.contains_iff_mem.mp hmet)
      · cases h
  | succ depth ih =>
    by_cases hdone : name ∈ done
    · rw [visit_done hdone] at h
      cases h
    by_cases hnew : name ∈ path
    · rw [visit_met hdone hnew] at h
      cases h
      exact hpath _ hnew
    rw [visit_succ hdone hnew] at h
    cases hfold : (((m.struct? name).map Struct.inner).getD []).foldlM
        (visit m depth (name :: path)) done with
    | ok done' =>
      rw [hfold] at h
      cases h
    | error e' =>
      rw [hfold] at h
      cases h
      obtain ⟨inner, hinner, done1, hvisit⟩ := exists_of_foldlM_eq_error hfold
      refine ih (List.forall_mem_cons.mpr ⟨.single hinner, fun outer ho => ?_⟩) hvisit
      exact (hpath outer ho).tail hinner

/-- Struct types with all that they hold, of which none holds itself. -/
structure Cleared (m : Module) (done : List String) : Prop where
  closed : ∀ name ∈ done, ∀ inner, m.Holds name inner → inner ∈ done
  acyclic : ∀ name ∈ done, ¬TransGen m.Holds name name

theorem Cleared.mem_of_reflTransGen (h : Cleared m done) (hname : name ∈ done)
    (hway : ReflTransGen m.Holds name held) : held ∈ done := by
  induction hway with
  | refl => exact hname
  | tail _ hstep ih => exact h.closed _ ih _ hstep

/-- A struct type that holds only cleared ones is cleared: a way back to it would make it one of them. -/
theorem Cleared.cons (h : Cleared m done) (hname : ∀ inner, m.Holds name inner → inner ∈ done) :
    Cleared m (name :: done) := by
  refine ⟨List.forall_mem_cons.mpr ⟨fun inner hi => ?_, fun outer ho inner hi => ?_⟩,
    List.forall_mem_cons.mpr ⟨fun hcycle => ?_, h.acyclic⟩⟩
  · exact List.mem_cons_of_mem _ (hname inner hi)
  · exact List.mem_cons_of_mem _ (h.closed outer ho inner hi)
  · obtain ⟨inner, hstep, hback⟩ := TransGen.head'_iff.mp hcycle
    exact h.acyclic name (h.mem_of_reflTransGen (hname inner hstep) hback) hcycle

theorem Cleared.foldlM {α : Type} (key : α → String) {g : List String → α → Except String (List String)}
    {xs : List α} (hg : ∀ x ∈ xs, ∀ done done', Cleared m done → g done x = .ok done' →
      Cleared m done' ∧ done ⊆ done' ∧ key x ∈ done')
    (hdone : Cleared m done) (h : xs.foldlM g done = .ok done') :
    Cleared m done' ∧ done ⊆ done' ∧ ∀ x ∈ xs, key x ∈ done' := by
  induction xs generalizing done with
  | nil =>
    cases h
    exact ⟨hdone, List.Subset.refl _, nofun⟩
  | cons x xs ih =>
    obtain ⟨hx, hxs⟩ := List.forall_mem_cons.mp hg
    rw [List.foldlM_cons, except_bind_eq_ok] at h
    obtain ⟨done1, hfirst, hrest⟩ := h
    obtain ⟨hcleared, hsub, hkey⟩ := hx done done1 hdone hfirst
    obtain ⟨hcleared, hsub', hkeys⟩ := ih hxs hcleared hrest
    exact ⟨hcleared, List.Subset.trans hsub hsub', List.forall_mem_cons.mpr ⟨hsub' hkey, hkeys⟩⟩

theorem Cleared.visit (hpath : path.Nodup) (hheld : ∀ outer ∈ path, ∃ inner, m.Holds outer inner)
    (hdepth : m.structs.length < depth + path.length) (hcleared : Cleared m done)
    (h : visit m depth path done name = .ok done') :
    Cleared m done' ∧ done ⊆ done' ∧ name ∈ done' := by
  induction depth generalizing path done done' name with
  | zero =>
    have := length_le_structs hpath hheld
    omega
  | succ depth ih =>
    by_cases hdone : name ∈ done
    · rw [visit_done hdone] at h
      cases h
      exact ⟨hcleared, List.Subset.refl _, hdone⟩
    by_cases hnew : name ∈ path
    · rw [visit_met hdone hnew] at h
      cases h
    rw [visit_succ hdone hnew, except_bind_eq_ok] at h
    obtain ⟨done1, hfold, hlast⟩ := h
    cases hlast
    obtain ⟨hcleared, hsub, hinner⟩ := hcleared.foldlM id (fun inner hinner done done' hc hv =>
      ih (List.nodup_cons.mpr ⟨hnew, hpath⟩) (List.forall_mem_cons.mpr ⟨⟨inner, hinner⟩, hheld⟩)
        (by rw [List.length_cons]; omega) hc hv) hfold
    exact ⟨hcleared.cons hinner, List.Subset.trans hsub (List.subset_cons_self ..), List.mem_cons_self⟩

end

theorem checkAcyclic_cases (m : Module) :
    (checkAcyclic m = .ok () ∧ ∀ name, ¬TransGen m.Holds name name) ∨
      ∃ name, checkAcyclic m = .error (.inStruct name .recursive) ∧ TransGen m.Holds name name := by
  rw [checkAcyclic]
  cases hfold : m.structs.foldlM (fun done s => visit m (m.structs.length + 1) [] done s.name) [] with
  | ok done =>
    refine .inl ⟨rfl, fun name hcycle => ?_⟩
    have hnone : Cleared m [] := ⟨by simp, by simp⟩
    obtain ⟨hcleared, -, hall⟩ := hnone.foldlM Struct.name (fun s _ done done' hc hv =>
      hc.visit .nil (by simp) (Nat.lt_succ_self _) hv) hfold
    obtain ⟨inner, hinner, -⟩ := TransGen.head'_iff.mp hcycle
    obtain ⟨s, hs, rfl⟩ := hinner.exists_struct
    exact hcleared.acyclic _ (hall s hs) hcycle
  | error name =>
    obtain ⟨s, -, done, hvisit⟩ := exists_of_foldlM_eq_error hfold
    exact .inr ⟨name, rfl, transGen_of_visit (by simp) hvisit⟩

/-! ## The struct types of a program -/

theorem lowerStruct_eq_ok (h : lowerStruct d = .ok t) :
    t.name = d.name ∧ List.Forall₂ (fun f t => Ty.ofSource f.ty = .ok t) d.fields t.fields := by
  rw [lowerStruct] at h
  cases hfields : d.fields.mapM fun f => Ty.ofSource f.ty with
  | error e =>
    rw [hfields] at h
    cases h
  | ok ts =>
    rw [hfields] at h
    cases h
    exact ⟨rfl, mapM_eq_ok_iff.mp hfields⟩

theorem ofSource_eq_struct (h : Ty.ofSource ty = .ok (.struct name)) : ty = .struct name := by
  cases ty <;> cases h
  rfl

theorem inner_of_lowerStruct (h : lowerStruct d = .ok t) :
    t.inner = Typing.fieldStructs d := by
  have hfields := (lowerStruct_eq_ok h).2
  rw [Struct.inner, Typing.fieldStructs]
  generalize d.fields = fields, t.fields = types at hfields
  induction hfields with
  | nil => rfl
  | @cons f ty _ _ hty _ ih =>
    rw [List.filterMap_cons, List.filterMap_cons, ih]
    generalize f.ty = source at hty
    cases source <;> cases hty <;> rfl

def Module.HasStructs (m : Module) (s : Symbols) : Prop :=
  List.Forall₂ (fun d t => lowerStruct d = .ok t) s.structs m.structs

namespace Module.HasStructs

variable {m : Module} (h : m.HasStructs s)
include h

theorem struct?_cases (name : String) : (s.struct? name = none ∧ m.struct? name = none) ∨
    ∃ d t, s.struct? name = some d ∧ m.struct? name = some t ∧ lowerStruct d = .ok t :=
  find?_forall₂ h fun _ _ ht => by rw [(lowerStruct_eq_ok ht).1]

theorem struct? {name : String} (hd : s.struct? name = some d) :
    ∃ t, m.struct? name = some t ∧ lowerStruct d = .ok t :=
  find?_of_forall₂ h (fun _ _ ht => by rw [(lowerStruct_eq_ok ht).1]) hd

theorem exists_struct {name : String} (ht : m.struct? name = some t) :
    ∃ d, s.struct? name = some d ∧ lowerStruct d = .ok t := by
  rcases h.struct?_cases name with ⟨-, hnone⟩ | ⟨d, t', hd, ht', hlower⟩
  · rw [ht] at hnone
    cases hnone
  · rw [Option.some.inj (ht.symm.trans ht')]
    exact ⟨d, hd, hlower⟩

theorem holds_eq : m.Holds = s.Holds := by
  funext outer inner
  rw [Module.Holds, Symbols.Holds]
  rcases h.struct?_cases outer with ⟨hd, ht⟩ | ⟨d, t, hd, ht, hlower⟩
  · simp [hd, ht]
  · simp [hd, ht, inner_of_lowerStruct hlower]

theorem names : m.structs.map Struct.name = s.structs.map StructDef.name := by
  rw [← List.forall₂_eq_eq_eq, List.forall₂_map_left_iff, List.forall₂_map_right_iff]
  exact h.flip.imp fun t d ht => (lowerStruct_eq_ok ht).1

variable (hf : ∀ d ∈ s.structs, ∀ f ∈ d.fields, f.ty.Declared s ∧ f.ty ≠ .void)
include hf

theorem checkField {ty : Ty} (ht : t ∈ m.structs) (hty : ty ∈ t.fields) :
    Ssa.checkField m ty = .ok () := by
  obtain ⟨d, hd, hlower⟩ := exists_of_forall₂ h ht
  obtain ⟨g, hg, hsource⟩ := exists_of_forall₂ (lowerStruct_eq_ok hlower).2 hty
  obtain ⟨hdeclared, hvoid⟩ := hf d hd g hg
  have hne := ofSource_ne_void hsource hvoid
  cases ty with
  | void => exact absurd rfl hne
  | struct name =>
    rw [ofSource_eq_struct hsource] at hdeclared
    obtain ⟨inner, hinner⟩ := hdeclared.struct name rfl
    obtain ⟨t', ht', -⟩ := h.struct? hinner
    simp [Ssa.checkField, ht']
  | _ => rfl

theorem checkStructs {structs : List Struct} (hsub : structs ⊆ m.structs)
    (hnodup : (structs.map Struct.name).Nodup) (hseen : ∀ t ∈ structs, t.name ∉ seen) :
    Ssa.checkStructs m seen structs = .ok () := by
  induction structs generalizing seen with
  | nil => rfl
  | cons t rest ih =>
    obtain ⟨ht, hrest⟩ := List.cons_subset.mp hsub
    obtain ⟨hnew, hseen⟩ := List.forall_mem_cons.mp hseen
    rw [List.map_cons, List.nodup_cons] at hnodup
    have hfields : (t.fields.forM fun ty =>
        (Ssa.checkField m ty).mapError (Flaw.inStruct t.name)) = .ok () := by
      refine forM_eq_ok fun ty hty => ?_
      rw [h.checkField hf ht hty]
      rfl
    have hnext : ∀ t' ∈ rest, t'.name ∉ t.name :: seen := by
      intro t' ht'
      rw [List.mem_cons, not_or]
      exact ⟨fun heq => hnodup.1 (heq ▸ List.mem_map_of_mem ht'), hseen t' ht'⟩
    rw [Ssa.checkStructs]
    simp [hnew, hfields, ih hrest hnodup.2 hnext, bind, Except.bind]

/-- Struct types with different names and fields of known size are rejected exactly if one of them holds
itself, and the error names such a type. -/
theorem checkTypes_cases (hn : (s.structs.map StructDef.name).Nodup) :
    (m.checkTypes = .ok () ∧ ∀ name, ¬TransGen s.Holds name name) ∨
      ∃ name, m.checkTypes = .error (.inStruct name .recursive) ∧ TransGen s.Holds name name := by
  have hstructs : Ssa.checkStructs m [] m.structs = .ok () :=
    h.checkStructs hf (List.Subset.refl _) (h.names ▸ hn) (by simp)
  have hcheck : m.checkTypes = checkAcyclic m := by
    rw [Module.checkTypes, hstructs]
    rfl
  rw [hcheck, ← h.holds_eq]
  exact checkAcyclic_cases m

end Module.HasStructs

theorem exists_lowerStructs {p : Program}
    (hf : ∀ d ∈ p.structs, ∀ f ∈ d.fields, f.ty.Declared p.symbols ∧ f.ty ≠ .void) :
    ∃ structs, p.structs.mapM lowerStruct = .ok structs := by
  refine exists_mapM_eq_ok fun d hd => ?_
  obtain ⟨types, htypes⟩ : ∃ types, d.fields.mapM (fun f => Ty.ofSource f.ty) = .ok types :=
    exists_mapM_eq_ok fun f hm => exists_ofSource (hf d hd f hm).1.proper
  refine ⟨⟨d.name, types⟩, ?_⟩
  rw [lowerStruct, htypes]
  rfl

/-- The two searches for structs that hold themselves decide the same. For structs with different names
whose fields have declared types other than `void`, the search from a struct finds it exactly if a way
along fields leads back to it; the struct types are accepted exactly if there is no such way; and so a
struct is reported as holding itself exactly if the types are rejected. More steps or a greater depth
than the bounds allow change nothing. -/
theorem containment_searches_agree {p : Program} (hn : (p.structs.map StructDef.name).Nodup)
    (hf : ∀ d ∈ p.structs, ∀ f ∈ d.fields, f.ty.Declared p.symbols ∧ f.ty ≠ .void) :
    (∀ d ∈ p.structs,
      (∀ steps > p.structs.length,
        Typing.holds p.symbols d.name steps [] [d] = Typing.holdsItself p.symbols d) ∧
      (Typing.holdsItself p.symbols d = true ↔ TransGen p.symbols.Holds d.name d.name)) ∧
    ∃ structs, p.structs.mapM lowerStruct = .ok structs ∧ ∀ m : Module, m.structs = structs →
      (∀ depth > structs.length, ∀ done name,
        visit m depth [] done name = visit m (structs.length + 1) [] done name) ∧
      (m.checkTypes = .ok () ↔ ∀ name, ¬TransGen p.symbols.Holds name name) ∧
      ((∃ d ∈ p.analyze.diagnostics, d.SaysRecursive) ↔
        ∃ name, m.checkTypes = .error (.inStruct name .recursive)) := by
  have hdecides : ∀ d ∈ p.structs, ∀ steps > p.structs.length,
      (Typing.holds p.symbols d.name steps [] [d] = true ↔
        TransGen p.symbols.Holds d.name d.name) :=
    fun d hd steps hsteps => Symbols.holds_iff hn (Symbols.struct?_name hn hd) hsteps
  have hitself := fun d hd => hdecides d hd (p.structs.length + 1) (Nat.lt_succ_self _)
  refine ⟨fun d hd => ⟨fun steps hsteps => ?_, hitself d hd⟩, ?_⟩
  · exact Bool.eq_iff_iff.mpr ((hdecides d hd steps hsteps).trans (hitself d hd).symm)
  obtain ⟨structs, hlower⟩ := exists_lowerStructs hf
  refine ⟨structs, hlower, ?_⟩
  rintro m rfl
  have htypes : m.HasStructs p.symbols := mapM_eq_ok_iff.mp hlower
  refine ⟨fun depth hdepth done name => ?_, ?_⟩
  · induction hdepth with
    | refl => rfl
    | step hdepth ih =>
      rw [← ih]
      exact visit_depth .nil (by simp) hdepth
  -- a struct that the search finds in itself is one with a way back, and conversely
  have hreported : (∃ d ∈ p.analyze.diagnostics, d.SaysRecursive) ↔
      ∃ name, TransGen p.symbols.Holds name name := by
    rw [Program.saysRecursive_iff hn]
    constructor
    · rintro ⟨d, hd, hholds⟩
      exact ⟨d.name, (hitself d hd).mp hholds⟩
    · rintro ⟨name, hcycle⟩
      obtain ⟨_, ⟨d, hd, -⟩, -⟩ := TransGen.head'_iff.mp hcycle
      obtain ⟨hds, rfl⟩ := Symbols.struct?_eq_some hd
      exact ⟨d, hds, (hitself d hds).mpr hcycle⟩
  rw [hreported]
  rcases htypes.checkTypes_cases hf hn with ⟨hok, hnone⟩ | ⟨name, herror, hcycle⟩
  · simp [hok, hnone]
  · simp only [herror]
    exact ⟨⟨nofun, fun hnone => absurd hcycle (hnone name)⟩, fun _ => ⟨name, rfl⟩, fun _ => ⟨name, hcycle⟩⟩

def tangledProgram : Program :=
  ⟨[.struct ⟨"a", [⟨"x", .i32, default⟩, ⟨"y", .struct "b", default⟩], default⟩,
    .struct ⟨"b", [⟨"x", .struct "a", default⟩], default⟩]⟩

theorem containment_searches_agree_tangled :
    ∃ structs, tangledProgram.structs.mapM lowerStruct = .ok structs ∧ ∀ m : Module,
      m.structs = structs → ∃ name, m.checkTypes = .error (.inStruct name .recursive) := by
  have hf : ∀ d ∈ tangledProgram.structs, ∀ f ∈ d.fields,
      f.ty.Declared tangledProgram.symbols ∧ f.ty ≠ .void := by
    simp only [tangledProgram, Program.structs, List.filterMap_cons, List.filterMap_nil,
      List.forall_mem_cons, List.not_mem_nil, false_imp_iff, implies_true, and_true]
    have hproper : ∀ name, (StructLang.Ty.struct name).Proper := by simp [StructLang.Ty.Proper]
    refine ⟨⟨⟨.of_scalar (by simp [StructLang.Ty.Proper]) rfl, by simp⟩, ⟨hproper _, ?_⟩, by simp⟩,
      ⟨hproper _, ?_⟩, by simp⟩
    all_goals rintro name ⟨⟩
    all_goals exact ⟨_, rfl⟩
  obtain ⟨hdecides, structs, hlower, hagree⟩ := containment_searches_agree (by decide) hf
  refine ⟨structs, hlower, fun m hm => (hagree m hm).2.2.mp ?_⟩
  rw [Program.saysRecursive_iff (by decide)]
  exact ⟨_, List.mem_cons_self, rfl⟩

end StructLang.Ssa
