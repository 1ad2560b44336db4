import StructLang.Proofs.Findings

/-!
# When a function is reported as defined twice, and a struct as holding itself

Checking a program says so of a function exactly if an earlier one has the same symbol, the entry point
apart, and of a struct exactly if the search finds it in itself. No other rule uses these words: every
other part of the check reports ordinary issues only.
-/

namespace StructLang

theorem Issue.message_eq_duplicateFunction :
    i.message = (duplicateFunction name).message ↔ i = duplicateFunction name := by
  constructor
  · intro h
    have hopening := congrArg (fun s => s.toList.take 2) h
    have hclosing := congrArg (fun s => s.toList.reverse.head?) h
    have htext : ∀ s : String, toString s = s := fun _ => rfl
    -- one other message begins with the same two letters, and it ends with a full stop
    cases i with
    | duplicateFunction other =>
      dsimp only [message] at h
      simpa [htext] using h
    | functionNotFound other =>
      dsimp only [message] at hclosing
      simp [htext] at hclosing
    | _ =>
      dsimp only [message] at hopening
      simp [htext] at hopening
  · rintro rfl
    rfl

theorem Issue.message_eq_recursiveStruct
    (h : i.message = (recursiveStruct name).message) : i = recursiveStruct name := by
  have hopening := congrArg (fun s => s.toList.take 2) h
  have hclosing := congrArg (fun s => s.toList.reverse.head?) h
  have htext : ∀ s : String, toString s = s := fun _ => rfl
  -- one other message begins with the same two letters, and it ends with a quotation mark
  cases i with
  | recursiveStruct other =>
    dsimp only [message] at h
    simpa [htext] using h
  | noSuchField struct member =>
    dsimp only [message] at hclosing
    simp [htext] at hclosing
  | _ =>
    dsimp only [message] at hopening
    simp [htext] at hopening

def Diagnostic.SaysDuplicate (d : Diagnostic) : Prop :=
  ∃ name, d.message = (Issue.duplicateFunction name).message

def Diagnostic.SaysRecursive (d : Diagnostic) : Prop :=
  ∃ name, d.message = (Issue.recursiveStruct name).message

namespace Diagnostic

variable {d : Diagnostic}

theorem Ordinary.not_saysDuplicate (h : d.Ordinary) : ¬d.SaysDuplicate := by
  rintro ⟨name, hname⟩
  obtain ⟨i, hordinary, hi⟩ := h
  rw [Issue.message_eq_duplicateFunction.mp (hi.symm.trans hname)] at hordinary
  cases hordinary

theorem Ordinary.not_saysRecursive (h : d.Ordinary) : ¬d.SaysRecursive := by
  rintro ⟨name, hname⟩
  obtain ⟨i, hordinary, hi⟩ := h
  rw [Issue.message_eq_recursiveStruct (hi.symm.trans hname)] at hordinary
  cases hordinary

theorem SaysDuplicate.not_saysRecursive (h : d.SaysDuplicate) : ¬d.SaysRecursive := by
  rintro ⟨name, hname⟩
  obtain ⟨other, hother⟩ := h
  cases Issue.message_eq_recursiveStruct (hother.symm.trans hname)

end Diagnostic

namespace Typing

/-! ## Declarations -/

theorem ordinaryReports_bindParams (seen : List String) (scope : Scope Binding)
    (params : List TypedName) :
    OrdinaryReports (params.map TypedName.span) (bindParams symbols seen scope params).2 := by
  induction params generalizing seen scope with
  | nil => exact .nil
  | cons p params ih =>
    rw [bindParams]
    refine .append (.of_ordinary List.mem_cons_self ?_) ((ih _ _).mono (List.subset_cons_self ..))
    rw [List.all_append, ordinary_declaredTypeIssues, Bool.and_true]
    split <;> rfl

theorem ordinaryReports_openScope (f : FnHeader) :
    OrdinaryReports (f.span :: f.params.map TypedName.span) (openScope symbols f).2 := by
  have hreceiver : OrdinaryReports (f.span :: f.params.map TypedName.span)
      (bindReceiver symbols Scope.empty.push f).2 := by
    unfold bindReceiver
    repeat' split
    · exact .nil
    · exact .nil
    · exact .of_ordinary List.mem_cons_self (ordinary_declaredTypeIssues _)
  exact ((OrdinaryReports.of_ordinary List.mem_cons_self (ordinary_declaredTypeIssues f.ret)).append
    hreceiver).append ((ordinaryReports_bindParams _ _ _).mono (List.subset_cons_self ..))

theorem ordinaryReports_checkFunction (f : FnDef) :
    OrdinaryReports (Item.fn f).places.spans (checkFunction symbols f).diagnostics := by
  rw [Item.places, SpanTree.spans, SpanTree.spansOf_append, SpanTree.spansOf_placesOfNames]
  refine ((ordinaryReports_openScope f.toFnHeader).mono ?_).append
    ((finds_checkBlock f.ret _ f.body).single.ordinary.mono ?_)
  · exact List.cons_subset_cons _ (List.subset_append_left ..)
  · exact List.subset_cons_of_subset _ (List.subset_append_right ..)

theorem ordinaryReports_fieldReports (struct : String) (seen : List String)
    (fields : List TypedName) :
    OrdinaryReports (fields.map TypedName.span) (fieldReports symbols struct seen fields) := by
  induction fields generalizing seen with
  | nil => exact .nil
  | cons f fields ih =>
    rw [fieldReports]
    refine .append (.of_ordinary List.mem_cons_self ?_) ((ih _).mono (List.subset_cons_self ..))
    rw [List.all_append, ordinary_declaredTypeIssues, Bool.and_true]
    repeat' split
    all_goals rfl

/-- All reports on structs are ordinary, except that a struct holds itself. -/
theorem mem_structsReports (h : d ∈ structsReports symbols seen structs) :
    (d.Ordinary ∨ d.SaysRecursive ∧ ∃ s ∈ structs, holdsItself symbols s = true) ∧
      ∀ place ∈ d.span, ∃ s ∈ structs, place ∈ (Item.struct s).places.spans := by
  induction structs generalizing seen with
  | nil => cases h
  | cons s structs ih =>
    rw [structsReports] at h
    rcases List.mem_append.mp h with h | h
    · have own : ∀ place ∈ some s.span, ∃ t ∈ s :: structs, place ∈ (Item.struct t).places.spans :=
        fun place hplace =>
          ⟨s, List.mem_cons_self, Option.some.inj hplace ▸ List.mem_cons_self⟩
      split at h
      · rw [List.mem_singleton.mp h]
        exact ⟨.inl ⟨.duplicateStruct s.name, rfl, rfl⟩, own⟩
      · rcases List.mem_append.mp h with h | h
        · obtain ⟨hordinary, hplace⟩ := ordinaryReports_fieldReports _ _ _ d h
          refine ⟨.inl hordinary, fun place hp => ⟨s, List.mem_cons_self, ?_⟩⟩
          rw [Item.places, SpanTree.spans, SpanTree.spansOf_placesOfNames]
          exact List.mem_cons_of_mem _ (hplace place hp)
        · split at h
          · next hs =>
            rw [List.mem_singleton.mp h]
            exact ⟨.inr ⟨⟨s.name, rfl⟩, s, List.mem_cons_self, hs⟩, own⟩
          · cases h
    · obtain ⟨hkind, hplace⟩ := ih h
      refine ⟨hkind.imp_right fun hrecursive => ⟨hrecursive.1, ?_⟩, fun place hp => ?_⟩
      · obtain ⟨s', hs', hholds⟩ := hrecursive.2
        exact ⟨s', List.mem_cons_of_mem _ hs', hholds⟩
      · obtain ⟨s', hs', hp⟩ := hplace place hp
        exact ⟨s', List.mem_cons_of_mem _ hs', hp⟩

theorem mem_structsReports_of_holdsItself
    (hn : (structs.map StructDef.name).Nodup) (hseen : ∀ s ∈ structs, s.name ∉ seen)
    (hs : s ∈ structs) (h : holdsItself symbols s = true) :
    (Issue.recursiveStruct s.name).report s.span ∈ structsReports symbols seen structs := by
  induction structs generalizing seen with
  | nil => cases hs
  | cons s' structs ih =>
    obtain ⟨hnew, hseen⟩ := List.forall_mem_cons.mp hseen
    rw [List.map_cons, List.nodup_cons] at hn
    rw [structsReports, List.mem_append]
    rcases List.mem_cons.mp hs with rfl | hs
    · simp [hnew, structReports, h, reportsAt]
    · refine .inr (ih hn.2 (fun t ht => ?_) hs)
      rw [List.mem_cons, not_or]
      exact ⟨fun heq => hn.1 (heq ▸ List.mem_map_of_mem ht), hseen t ht⟩

theorem ordinaryReports_foreignReports (d : ForeignDecl) :
    OrdinaryReports (Item.foreign d).places.spans (foreignReports symbols d) := by
  refine (OrdinaryReports.flatMap fun p hp => .of_ordinary ?_ (ordinary_declaredTypeIssues p.ty)).append
    (.of_ordinary List.mem_cons_self (ordinary_declaredTypeIssues d.ret))
  simpa [Item.places, SpanTree.spans] using .inr ⟨p, hp, rfl⟩

theorem ordinaryReports_entryPointReports (functions : List FnDef) :
    OrdinaryReports (functions.map fun f => f.span) (entryPointReports functions) := by
  unfold entryPointReports
  split
  · intro d hd
    rw [List.mem_singleton.mp hd]
    exact ⟨⟨.missingEntryPoint, rfl, rfl⟩, nofun⟩
  · next f extra heq =>
    refine .flatMap fun g hg => .of_ordinary (List.mem_map_of_mem ?_) rfl
    exact (List.mem_filter.mp (heq ▸ List.mem_cons_of_mem f hg)).1

/-! ## Functions -/

theorem exists_before_cons {P : List FnDef → FnDef → Prop} :
    (∃ before g after, f :: rest = before ++ g :: after ∧ P before g) ↔
      P [] f ∨ ∃ before g after, rest = before ++ g :: after ∧ P (f :: before) g := by
  constructor
  · rintro ⟨before, g, after, heq, h⟩
    rcases List.cons_eq_append_iff.mp heq with ⟨rfl, hhead⟩ | ⟨before', rfl, htail⟩
    · obtain ⟨rfl, -⟩ := List.cons.inj hhead
      exact .inl h
    · exact .inr ⟨before', g, after, htail, h⟩
  · rintro (h | ⟨before, g, after, rfl, h⟩)
    · exact ⟨[], f, rest, rfl, h⟩
    · exact ⟨f :: before, g, after, rfl, h⟩

/-- Among the functions that follow functions with the given symbols, those are reported whose symbol
an earlier one has. -/
theorem saysDuplicate_checkFunctions_iff (seen : List String) (fns : List FnDef) (d : Diagnostic) :
    (d ∈ (checkFunctions symbols seen fns).diagnostics ∧ d.SaysDuplicate) ↔
      ∃ before g after, fns = before ++ g :: after ∧ g.name ≠ entryPoint ∧
        d = (Issue.duplicateFunction g.name).report g.span ∧
        (g.linkage ∈ seen ∨ ∃ f ∈ before, f.name ≠ entryPoint ∧ f.linkage = g.linkage) := by
  induction fns generalizing seen with
  | nil =>
    have hnone : (∅ : Analysis).diagnostics = [] := rfl
    simp [checkFunctions, hnone]
  | cons f rest ih =>
    have hown : ¬(d ∈ (checkFunction symbols f).diagnostics ∧ d.SaysDuplicate) :=
      fun h => (ordinaryReports_checkFunction f d h.1).1.not_saysDuplicate h.2
    rw [exists_before_cons, checkFunctions]
    by_cases hmain : f.name = entryPoint
    · rw [if_pos hmain, Analysis.diagnostics_append, List.mem_append, or_and_right,
        or_iff_right hown, ih]
      simp [hmain]
    · rw [if_neg hmain, Analysis.diagnostics_append, Analysis.diagnostics_append, List.mem_append,
        List.mem_append, or_and_right, or_and_right, or_iff_right hown, ih]
      apply or_congr
      · have hsays : ((Issue.duplicateFunction f.name).report f.span).SaysDuplicate := ⟨f.name, rfl⟩
        by_cases hseen : f.linkage ∈ seen
        · simp +contextual [Analysis.reports, reportsAt, hseen, hmain, hsays]
        · simp [Analysis.reports, reportsAt, hseen]
      · have hearlier (before : List FnDef) (g : FnDef) :
            (g.linkage ∈ f.linkage :: seen ∨
              ∃ e ∈ before, e.name ≠ entryPoint ∧ e.linkage = g.linkage) ↔
            (g.linkage ∈ seen ∨
              ∃ e ∈ f :: before, e.name ≠ entryPoint ∧ e.linkage = g.linkage) := by
          rw [List.mem_cons, or_assoc, or_left_comm, eq_comm]
          simp [hmain]
        simp only [hearlier]

theorem mem_checkFunctions (h : d ∈ (checkFunctions symbols seen fns).diagnostics) :
    (d.Ordinary ∨ d.SaysDuplicate) ∧
      ∀ place ∈ d.span, ∃ f ∈ fns, place ∈ (Item.fn f).places.spans := by
  induction fns generalizing seen with
  | nil => cases h
  | cons f rest ih =>
    have own (h : d ∈ (checkFunction symbols f).diagnostics) : (d.Ordinary ∨ d.SaysDuplicate) ∧
        ∀ place ∈ d.span, ∃ g ∈ f :: rest, place ∈ (Item.fn g).places.spans := by
      obtain ⟨hordinary, hplace⟩ := ordinaryReports_checkFunction f d h
      exact ⟨.inl hordinary, fun place hp => ⟨f, List.mem_cons_self, hplace place hp⟩⟩
    have others {seen : List String} (h : d ∈ (checkFunctions symbols seen rest).diagnostics) :
        (d.Ordinary ∨ d.SaysDuplicate) ∧
          ∀ place ∈ d.span, ∃ g ∈ f :: rest, place ∈ (Item.fn g).places.spans := by
      refine ⟨(ih h).1, fun place hp => ?_⟩
      obtain ⟨g, hg, hplace⟩ := (ih h).2 place hp
      exact ⟨g, List.mem_cons_of_mem f hg, hplace⟩
    rw [checkFunctions] at h
    split at h
    · exact (List.mem_append.mp h).elim own others
    · refine (List.mem_append.mp h).elim (fun h => (List.mem_append.mp h).elim own fun h => ?_) others
      obtain ⟨i, hi, rfl⟩ := List.mem_map.mp h
      split at hi
      · rw [List.mem_singleton.mp hi]
        exact ⟨.inr ⟨f.name, rfl⟩, fun place hp =>
          ⟨f, List.mem_cons_self, Option.some.inj hp ▸ List.mem_cons_self⟩⟩
      · cases hi

end Typing

theorem Program.ordinary_of_mem_foreigns {p : Program}
    (h : d ∈ p.foreigns.flatMap (Typing.foreignReports p.symbols)) :
    d.Ordinary ∧ ∀ place ∈ d.span, ∃ e ∈ p.foreigns, place ∈ (Item.foreign e).places.spans := by
  obtain ⟨e, he, hd⟩ := List.mem_flatMap.mp h
  obtain ⟨hordinary, hplace⟩ := Typing.ordinaryReports_foreignReports e d hd
  exact ⟨hordinary, fun place hp => ⟨e, he, hplace place hp⟩⟩

/-- Checking a program reports a function as defined twice exactly if an earlier function has the same
symbol and neither is an entry point. -/
theorem Program.saysDuplicate_iff (p : Program) (d : Diagnostic) :
    (d ∈ p.analyze.diagnostics ∧ d.SaysDuplicate) ↔
      ∃ before g after, p.functions = before ++ g :: after ∧ g.name ≠ entryPoint ∧
        d = (Issue.duplicateFunction g.name).report g.span ∧
        ∃ f ∈ before, f.name ≠ entryPoint ∧ f.linkage = g.linkage := by
  have hstructs : ¬(d ∈ Typing.structsReports p.symbols [] p.structs ∧ d.SaysDuplicate) := by
    rintro ⟨hd, hsays⟩
    rcases (Typing.mem_structsReports hd).1 with hordinary | ⟨hrecursive, -⟩
    · exact hordinary.not_saysDuplicate hsays
    · exact hsays.not_saysRecursive hrecursive
  have hforeigns :
      ¬(d ∈ p.foreigns.flatMap (Typing.foreignReports p.symbols) ∧ d.SaysDuplicate) :=
    fun h => (ordinary_of_mem_foreigns h.1).1.not_saysDuplicate h.2
  have hentry : ¬(d ∈ Typing.entryPointReports p.functions ∧ d.SaysDuplicate) :=
    fun h => (Typing.ordinaryReports_entryPointReports p.functions d h.1).1.not_saysDuplicate h.2
  have hfunctions := @Typing.saysDuplicate_checkFunctions_iff p.symbols [] p.functions d
  simp only [List.not_mem_nil, false_or] at hfunctions
  simp only [Program.diagnostics_analyze, Program.found, Analysis.diagnostics_append, Analysis.reports, List.mem_append,
    or_and_right, hstructs, hforeigns, hentry, false_or, or_false]
  exact hfunctions

/-- Checking a program whose structs have different names reports a struct as holding itself exactly if
the search finds such a struct. -/
theorem Program.saysRecursive_iff {p : Program} (hn : (p.structs.map StructDef.name).Nodup) :
    (∃ d ∈ p.analyze.diagnostics, d.SaysRecursive) ↔
      ∃ s ∈ p.structs, Typing.holdsItself p.symbols s = true := by
  simp only [Program.diagnostics_analyze, Program.found, Analysis.diagnostics_append, Analysis.reports, List.mem_append]
  constructor
  · rintro ⟨d, ((hd | hd) | hd) | hd, hsays⟩
    · rcases (Typing.mem_structsReports hd).1 with hordinary | ⟨-, hholds⟩
      · exact absurd hsays hordinary.not_saysRecursive
      · exact hholds
    · exact absurd hsays (ordinary_of_mem_foreigns hd).1.not_saysRecursive
    · rcases (Typing.mem_checkFunctions hd).1 with hordinary | hduplicate
      · exact absurd hsays hordinary.not_saysRecursive
      · exact absurd hsays hduplicate.not_saysRecursive
    · exact absurd hsays
        (Typing.ordinaryReports_entryPointReports p.functions d hd).1.not_saysRecursive
  · rintro ⟨s, hs, hholds⟩
    exact ⟨_, .inl (.inl (.inl (Typing.mem_structsReports_of_holdsItself hn (by simp) hs hholds))),
      s.name, rfl⟩

end StructLang
