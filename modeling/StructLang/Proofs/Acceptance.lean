import Mathlib.Tactic.Tauto
import StructLang.Proofs.Findings
import StructLang.Proofs.Loading
import StructLang.Proofs.Typing

/-!
# Accepted programs keep the rules

A program that reads well and whose analysis reports no error is well typed, and its table of findings
records what the typing rules promise. Node numbers occur once, so nothing that the analysis finds out
about a node is hidden by what it finds out about another.
-/

namespace StructLang

def Quiet (ds : List Diagnostic) : Prop := ∀ d ∈ ds, d.isError = false

@[simp] theorem quiet_append : Quiet (ds ++ es) ↔ Quiet ds ∧ Quiet es := by
  simp only [Quiet, List.forall_mem_append]

@[simp] theorem quiet_flatMap {α : Type} {xs : List α} {g : α → List Diagnostic} :
    Quiet (xs.flatMap g) ↔ ∀ x ∈ xs, Quiet (g x) := by
  simp only [Quiet, List.mem_flatMap]
  exact ⟨fun h x hx d hd => h d ⟨x, hx, hd⟩, fun h d ⟨x, hx, hd⟩ => h x hx d hd⟩

namespace Analysis

variable {b : Analysis}

def Clean (a : Analysis) : Prop := a.hasErrors = false

@[simp] theorem clean_append : (a ++ b).Clean ↔ a.Clean ∧ b.Clean := by
  simp only [Clean, hasErrors, diagnostics_append, List.any_append, Bool.or_eq_false_iff]

@[simp] theorem clean_reports {ds : List Diagnostic} : (reports ds).Clean ↔ Quiet ds := by
  simp [Clean, hasErrors, reports, Quiet]

end Analysis

def Harmless (issues : List Issue) : Prop := ∀ i ∈ issues, i.level ≠ .error

@[simp] theorem harmless_nil : Harmless [] := by simp [Harmless]

@[simp] theorem harmless_append : Harmless (is ++ js) ↔ Harmless is ∧ Harmless js := by
  simp [Harmless, or_imp, forall_and]

@[simp] theorem harmless_cons : Harmless (i :: is) ↔ i.level ≠ .error ∧ Harmless is := by
  simp [Harmless]

@[simp] theorem harmless_ite [Decidable p] :
    Harmless (if p then [i] else []) ↔ (p → i.level ≠ .error) := by
  split <;> simp_all

variable {id : Nat}

@[simp] theorem Typing.quiet_reportsAt : Quiet (reportsAt span issues) ↔ Harmless issues := by
  simp [Quiet, reportsAt, Harmless, Diagnostic.isError, Issue.report]

namespace Findings

variable {f : Findings}

/-- The findings include those of an analysis. -/
structure Include (f : Findings) (a : Analysis) : Prop where
  types : ∀ id ty, (id, ty) ∈ a.types → f.types[id]? = some ty
  declared : ∀ id decls, (id, decls) ∈ a.declared → f.declaredIn id = decls

@[simp] theorem include_append : f.Include (a ++ b) ↔ f.Include a ∧ f.Include b := by
  constructor
  · intro h
    refine ⟨⟨fun id ty hm => h.types id ty ?_, fun id ds hm => h.declared id ds ?_⟩,
      ⟨fun id ty hm => h.types id ty ?_, fun id ds hm => h.declared id ds ?_⟩⟩ <;> simp [hm]
  · rintro ⟨ha, hb⟩
    constructor
    · intro id ty hm
      exact (List.mem_append.mp hm).elim (ha.types id ty) (hb.types id ty)
    · intro id ds hm
      exact (List.mem_append.mp hm).elim (ha.declared id ds) (hb.declared id ds)

theorem include_typed : f.Include (.typed id ty) ↔ f.types[id]? = some ty := by
  refine ⟨fun h => h.types id ty (by simp [Analysis.typed]), fun h => ⟨?_, ?_⟩⟩
  · intro id' ty' hm
    simp only [Analysis.typed, List.mem_singleton, Prod.mk.injEq] at hm
    rw [hm.1, hm.2, h]
  · simp [Analysis.typed]

theorem include_declares : f.Include (.declares id decls) ↔ f.declaredIn id = decls := by
  refine ⟨fun h => h.declared id decls (by simp [Analysis.declares]), fun h => ⟨?_, ?_⟩⟩
  · simp [Analysis.declares]
  · intro id' ds' hm
    simp only [Analysis.declares, List.mem_singleton, Prod.mk.injEq] at hm
    rw [hm.1, hm.2, h]

end Findings

namespace Typing

variable {f : Findings} {scope : Scope Binding}

/-! ## The rules of expressions -/

/-- Nothing stops compilation, and the findings include all that was found. -/
def Passes (f : Findings) (a : Analysis) : Prop := a.Clean ∧ f.Include a

@[simp] theorem passes_append : Passes f (a ++ b) ↔ Passes f a ∧ Passes f b := by
  simp only [Passes, Analysis.clean_append, Findings.include_append]
  constructor
  · rintro ⟨⟨ha, hb⟩, hia, hib⟩
    exact ⟨⟨ha, hia⟩, hb, hib⟩
  · rintro ⟨⟨ha, hia⟩, hb, hib⟩
    exact ⟨⟨ha, hb⟩, hia, hib⟩

theorem passes_conclude : Passes f (conclude node parts v).2 →
      Passes f parts ∧ Harmless v.issues ∧ f.types[node.id]? = some v.ty := by
  intro h
  simp only [conclude, passes_append] at h
  obtain ⟨⟨hparts, hissues⟩, hty⟩ := h
  exact ⟨hparts, quiet_reportsAt.mp (Analysis.clean_reports.mp hissues.1),
    Findings.include_typed.mp hty.2⟩

theorem Verdict.whenTyped_eq (h : ∀ t ∈ parts, t ≠ .error) : whenTyped parts v = v := by
  unfold whenTyped
  rw [if_neg]
  intro hc
  rw [List.contains_iff_mem] at hc
  exact h _ hc rfl

theorem unaryRule_passes (h : Harmless (unaryRule op t).issues) :
    meets t (unaryDemand op) = true ∧ (unaryRule op t).ty = t := by
  unfold unaryRule at h ⊢
  split
  · next hm => exact ⟨hm, rfl⟩
  · next hm => simp [hm, Verdict.reject, Issue.level] at h

theorem binaryRule_passes (h : Harmless (binaryRule op l r).issues) :
    l = r ∧ meets l (binaryDemand op) = true ∧
      (binaryRule op l r).ty = if op.isComparison then .bool else l := by
  unfold binaryRule at h ⊢
  split
  · next hne => simp [hne, Verdict.reject, Issue.level] at h
  · next heq =>
    split
    · next hm => exact ⟨Decidable.not_not.mp heq, hm, rfl⟩
    · next hm => simp [heq, hm, Verdict.reject, Issue.level] at h

theorem castRule_passes (h : Harmless (castRule source target).issues) :
    (source = target ∨ source.castsTo target = true) ∧ (castRule source target).ty = target := by
  unfold castRule at h ⊢
  split
  · next heq => exact ⟨.inl heq, rfl⟩
  · next hne =>
    split
    · next hc => exact ⟨.inr hc, rfl⟩
    · next hc => simp [hne, hc, Verdict.reject, Issue.level] at h

theorem callRule_passes (h : Harmless (callRule s name args).issues) :
    ∃ callee, s.resolve name args = .ok callee ∧ (callRule s name args).ty = callee.ret := by
  unfold callRule at h ⊢
  split
  · next callee hr => exact ⟨callee, hr, rfl⟩
  · next hr => simp [hr, Verdict.reject, Issue.level] at h
  · next hr => simp [hr, Verdict.reject, Issue.level] at h

theorem constructRule_passes (hargs : ∀ t ∈ args, t ≠ .error)
    (h : Harmless (constructRule s name args).issues) :
    ∃ d, s.struct? name = some d ∧ d.fields.map TypedName.ty = args ∧
      (constructRule s name args).ty = .struct name := by
  unfold constructRule at h ⊢
  split
  · next hd => simp [hd, Verdict.reject, Issue.level] at h
  · next d hd =>
    simp only [hd, Verdict.whenTyped_eq hargs] at h ⊢
    split
    · next heq => exact ⟨d, rfl, heq, rfl⟩
    · next hne => simp [hne, Verdict.reject, Issue.level] at h

theorem accessRule_passes (h : Harmless (accessRule s object member).issues) :
    ∃ struct index ty, object = .struct struct ∧
      s.field? object member = some (index, ty) ∧ (accessRule s object member).ty = ty := by
  unfold accessRule at h ⊢
  split
  · next name =>
    split
    · next index ty hf => exact ⟨name, index, ty, rfl, hf, rfl⟩
    · next hf => simp [hf, Verdict.reject, Issue.level] at h
  · next hns => simp [Verdict.reject, Issue.level] at h

/-! ## Expressions -/

theorem passes_whenTyped (h : Passes f (conclude node parts (.whenTyped ts v)).2)
    (hts : ∀ t ∈ ts, t ≠ .error) : Harmless v.issues ∧ f.types[node.id]? = some v.ty ∧
      (conclude node parts (.whenTyped ts v)).1 = v.ty := by
  rw [Verdict.whenTyped_eq hts] at h ⊢
  exact ⟨(passes_conclude h).2.1, (passes_conclude h).2.2, rfl⟩

section

mutual

/-- An expression that passes has the type that was found. -/
theorem infer_sound (hsym : f.symbols.Sound) (hscope : scope.Sound f.symbols) (e : Expr)
    (h : Passes f (infer f.symbols scope e).2) :
    Typed f scope e (infer f.symbols scope e).1 := by
  have hproper : ∀ {e t}, Typed f scope e t → t ≠ .error := fun he => (he.declared hsym hscope).proper.2
  rw [infer.eq_def] at h ⊢
  cases e with
  | integer => exact .integer (passes_conclude h).2.2
  | float => exact .float (passes_conclude h).2.2
  | bool => exact .bool (passes_conclude h).2.2
  | text => exact .text (passes_conclude h).2.2
  | var n name =>
    obtain ⟨-, hok, hty⟩ := passes_conclude h
    simp only [conclude]
    unfold varRule at hok hty ⊢
    split at hok <;> simp only [*] at hty ⊢
    · next b hb => exact .var hty hb
    · simp [Verdict.reject, Issue.level] at hok
  | unary n op e =>
    have he := infer_sound hsym hscope e (passes_conclude h).1
    obtain ⟨hok, hty, hfound⟩ := passes_whenTyped h (by simpa using hproper he)
    obtain ⟨hop, heq⟩ := unaryRule_passes hok
    rw [hfound, heq]
    exact .unary (heq ▸ hty) he hop
  | binary n op l r =>
    obtain ⟨hl, hr⟩ := passes_append.mp (passes_conclude h).1
    have hl := infer_sound hsym hscope l hl
    have hr := infer_sound hsym hscope r hr
    obtain ⟨hok, hty, hfound⟩ := passes_whenTyped h (by simpa using ⟨hproper hl, hproper hr⟩)
    obtain ⟨hlr, hop, heq⟩ := binaryRule_passes hok
    rw [hfound, heq]
    exact .binary (heq ▸ hty) hl (hlr ▸ hr) hop
  | cast n e target =>
    have he := infer_sound hsym hscope e (passes_conclude h).1
    obtain ⟨hok, hty, hfound⟩ := passes_whenTyped h (by simpa using hproper he)
    obtain ⟨hc, heq⟩ := castRule_passes hok
    rw [hfound, heq]
    exact .cast (heq ▸ hty) he hc
  | call n name args =>
    have hargs := inferAll_sound hsym hscope args (passes_conclude h).1
    obtain ⟨hok, hty, hfound⟩ := passes_whenTyped h fun t ht => (hargs.declared hsym hscope t ht).proper.2
    obtain ⟨callee, hr, heq⟩ := callRule_passes hok
    rw [hfound, heq]
    exact .call (heq ▸ hty) hargs hr
  | construct n name args =>
    obtain ⟨hparts, hok, hty⟩ := passes_conclude h
    have hargs := inferAll_sound hsym hscope args hparts
    simp only [conclude]
    obtain ⟨d, hd, hfields, heq⟩ :=
      constructRule_passes (fun t ht => (hargs.declared hsym hscope t ht).proper.2) hok
    rw [heq] at hty ⊢
    exact .construct hty hd (hfields ▸ hargs)
  | access n e member =>
    have he := infer_sound hsym hscope e (passes_conclude h).1
    obtain ⟨hok, hty, hfound⟩ := passes_whenTyped h (by simpa using hproper he)
    obtain ⟨struct, index, ty, hstruct, hf, heq⟩ := accessRule_passes hok
    rw [hfound, heq]
    rw [hstruct] at he hf
    exact .access (heq ▸ hty) he hf

theorem inferAll_sound (hsym : f.symbols.Sound) (hscope : scope.Sound f.symbols) (es : List Expr)
    (h : Passes f (inferAll f.symbols scope es).2) :
    TypedAll f scope es (inferAll f.symbols scope es).1 := by
  cases es with
  | nil => exact .nil
  | cons e es =>
    rw [inferAll] at h ⊢
    obtain ⟨he, hes⟩ := passes_append.mp h
    exact .cons (infer_sound hsym hscope e he) (inferAll_sound hsym hscope es hes)

end

end

/-! ## Statements -/

theorem declaredTypeIssues_eq_nil (h : ty.Declared s) : declaredTypeIssues s ty = [] := by
  unfold declaredTypeIssues
  split
  · next name =>
    obtain ⟨d, hd⟩ := h.struct name rfl
    simp [hd]
  · rfl

theorem harmless_declaredTypeIssues (hp : ty.Proper) :
    Harmless (declaredTypeIssues s ty) ↔ ty.Declared s := by
  refine ⟨fun h => ⟨hp, ?_⟩, fun h => declaredTypeIssues_eq_nil h ▸ harmless_nil⟩
  rintro name rfl
  simpa [declaredTypeIssues, Issue.level, Option.eq_none_iff_forall_not_mem] using h

private theorem known_of_harmless
    (h : Harmless (if v.ty = .void || v.ty = .unknown then
      (⟨.error, v.issues ++ [.untypedVariable name]⟩ : Verdict) else v).issues) :
    (v.ty = .void || v.ty = .unknown) = false := by
  rw [Bool.eq_false_iff]
  intro hv
  rw [if_pos hv, harmless_append] at h
  exact absurd rfl (harmless_cons.mp h.2).1

/-- A declaration that passes gives its variable a declared type other than `void`, that of its
annotation and of its initial value if it has one. -/
theorem declVerdict_passes (hann : ∀ ty ∈ d.annotation, ty.Proper)
    (hinit : ∀ t ∈ init, t.Declared s) (h : Harmless (declVerdict s d init).issues) :
    (declVerdict s d init).ty.Declared s ∧ (declVerdict s d init).ty ≠ .void ∧
      (∀ t ∈ init, t = (declVerdict s d init).ty) ∧
      (d.annotation = some (declVerdict s d init).ty ∨ d.annotation = none ∧ init ≠ none) := by
  unfold declVerdict at h ⊢
  have hk := known_of_harmless h
  dsimp only at h ⊢
  simp only [hk, Bool.false_eq_true, if_false] at h ⊢
  simp only [Bool.or_eq_false_iff, decide_eq_false_iff_not] at hk
  cases ha : d.annotation with
  | none =>
    cases init with
    | none => simp [ha, Verdict.accept] at hk
    | some t =>
      rw [ha] at hk
      exact ⟨hinit t rfl, hk.1, fun _ ht => (Option.some.inj ht).symm, .inr ⟨rfl, by simp⟩⟩
  | some ty =>
    rw [ha] at h hk
    -- an annotation that is not declared makes reports of its own
    have hdecl : ty.Declared s := by
      refine (harmless_declaredTypeIssues (hann ty ha)).mp ?_
      cases hi : declaredTypeIssues s ty with
      | nil => exact harmless_nil
      | cons i is => simpa only [hi] using h
    simp only [declaredTypeIssues_eq_nil hdecl] at h hk ⊢
    cases init with
    | none => exact ⟨hdecl, hk.1, by simp, .inl rfl⟩
    | some found =>
      have hne := (hinit found rfl).proper.2
      by_cases heq : found = ty
      · simp only [heq, ne_eq, not_true, decide_false, Bool.and_false, Bool.false_eq_true,
          if_false, Verdict.accept] at hk ⊢
        exact ⟨hdecl, hk.1, by simp, by simp⟩
      · simp [hne, heq, Issue.level] at h

theorem inferOption_sound (hsym : f.symbols.Sound) (hscope : scope.Sound f.symbols)
    (e : Option Expr) (h : Passes f (inferOption f.symbols scope e).2) :
    (∀ t ∈ (inferOption f.symbols scope e).1, t.Declared f.symbols) ∧
      ∀ e' ∈ e, ∃ t ∈ (inferOption f.symbols scope e).1, Typed f scope e' t := by
  cases e with
  | none => simp [inferOption]
  | some e =>
    have he := infer_sound hsym hscope e h
    constructor
    · rintro _ ⟨⟩
      exact he.declared hsym hscope
    · rintro _ ⟨⟩
      exact ⟨_, rfl, he⟩

theorem passes_reportsAt : Passes f (.reports (reportsAt span issues)) → Harmless issues :=
  fun h => quiet_reportsAt.mp (Analysis.clean_reports.mp h.1)

theorem assignIssues_harmless (hscope : scope.Sound f.symbols)
    (hv : value.Declared f.symbols) (h : Harmless (assignIssues scope name value)) :
    ∃ b, scope.lookup? name = some b ∧ b.isReceiver = false ∧ b.ty = value := by
  unfold assignIssues at h
  cases hb : scope.lookup? name with
  | none => simp [hb, Issue.level] at h
  | some b =>
    rw [hb, harmless_append] at h
    refine ⟨b, rfl, ?_, ?_⟩
    · cases hr : b.isReceiver with
      | false => rfl
      | true => simp [hr, Issue.level] at h
    · refine Decidable.byContradiction fun hne => ?_
      simp [(hscope name b hb).proper.2, hv.proper.2, hne, Issue.level] at h

theorem returnIssues_harmless (hf : found ≠ .error) (h : Harmless (returnIssues expected found)) :
    found = expected := by
  refine Decidable.byContradiction fun hne => ?_
  simp [returnIssues, hf, hne, Issue.level] at h

theorem conditionIssues_harmless (hf : found ≠ .error) (h : Harmless (conditionIssues found)) :
    found = .bool := by
  refine Decidable.byContradiction fun hne => ?_
  simp [conditionIssues, hf, hne, Issue.level] at h

mutual

/-- A statement that passes keeps the rules, and the scope that follows it has declared types. -/
theorem checkStmt_sound (hsym : f.symbols.Sound) (ret : Ty) (s : Stmt) (scope : Scope Binding)
    (hscope : scope.Sound f.symbols) (hg : s.Grammatical)
    (h : Passes f (checkStmt f.symbols ret scope s).2) :
    StmtTyped f ret scope s (checkStmt f.symbols ret scope s).1 ∧
      (checkStmt f.symbols ret scope s).1.Sound f.symbols := by
  cases s with
  | declare d =>
    rw [checkStmt] at h ⊢
    obtain ⟨hparts, hok, hty⟩ := passes_conclude h
    rw [Stmt.Grammatical] at hg
    obtain ⟨hds, hinit⟩ := inferOption_sound hsym hscope d.init hparts
    obtain ⟨hd, hvoid, heq, hann⟩ := declVerdict_passes hg.2 hds hok
    refine ⟨.declare hty hd hvoid (fun e he => ?_) (hann.imp_right fun h => ⟨h.1, fun hnone => h.2 ?_⟩),
      hscope.define hd⟩
    · obtain ⟨t, ht, htyped⟩ := hinit e he
      exact heq t ht ▸ htyped
    · rw [hnone]
      rfl
  | assign span name value =>
    rw [checkStmt] at h ⊢
    obtain ⟨hvalue, hissues⟩ := passes_append.mp h
    have hv := infer_sound hsym hscope value hvalue
    obtain ⟨b, hb, hrec, hty⟩ :=
      assignIssues_harmless hscope (hv.declared hsym hscope) (passes_reportsAt hissues)
    exact ⟨.assign hb hrec (hty ▸ hv), hscope⟩
  | branch span cond t e =>
    cases e with
    | none =>
      rw [Stmt.Grammatical] at hg
      simp only [checkStmt] at h ⊢
      obtain ⟨⟨hcond, hissues⟩, ht⟩ := by simpa only [passes_append] using h
      have hc := infer_sound hsym hscope cond hcond
      rw [conditionIssues_harmless (hc.declared hsym hscope).proper.2 (passes_reportsAt hissues)] at hc
      exact ⟨.branch hc (checkBlock_sound hsym ret t _ hscope.push hg ht), hscope⟩
    | some e =>
      rw [Stmt.Grammatical] at hg
      simp only [checkStmt] at h ⊢
      obtain ⟨⟨⟨hcond, hissues⟩, ht⟩, he⟩ := by simpa only [passes_append] using h
      have hc := infer_sound hsym hscope cond hcond
      rw [conditionIssues_harmless (hc.declared hsym hscope).proper.2 (passes_reportsAt hissues)] at hc
      exact ⟨.branchElse hc (checkBlock_sound hsym ret t _ hscope.push hg.1 ht)
        (checkBlock_sound hsym ret e _ hscope.push hg.2 he), hscope⟩
  | ret span value =>
    rw [checkStmt] at h ⊢
    obtain ⟨hvalue, hissues⟩ := passes_append.mp h
    refine ⟨?_, hscope⟩
    cases value with
    | none =>
      have hr := returnIssues_harmless (by simp [inferOption]) (passes_reportsAt hissues)
      exact .retNone hr.symm
    | some e =>
      have he := infer_sound hsym hscope e hvalue
      exact .ret (returnIssues_harmless (he.declared hsym hscope).proper.2
        (passes_reportsAt hissues) ▸ he)
  | expr e =>
    rw [checkStmt] at h ⊢
    exact ⟨.expr (infer_sound hsym hscope e h), hscope⟩

theorem checkStmts_sound (hsym : f.symbols.Sound) (ret : Ty) (stmts : List Stmt)
    (scope : Scope Binding) (hscope : scope.Sound f.symbols) (hg : GrammaticalStmts stmts)
    (h : Passes f (checkStmts f.symbols ret scope stmts)) : StmtsTyped f ret scope stmts := by
  cases stmts with
  | nil => exact .nil
  | cons s rest =>
    rw [checkStmts] at h
    rw [GrammaticalStmts] at hg
    obtain ⟨hs, hrest⟩ := passes_append.mp h
    obtain ⟨hs, hinner⟩ := checkStmt_sound hsym ret s scope hscope hg.1 hs
    exact .cons hs (checkStmts_sound hsym ret rest _ hinner hg.2 hrest)

theorem checkBlock_sound (hsym : f.symbols.Sound) (ret : Ty) (b : Block)
    (scope : Scope Binding) (hscope : scope.Sound f.symbols) (hg : b.Grammatical)
    (h : Passes f (checkBlock f.symbols ret scope b)) : BlockTyped f ret scope b := by
  cases b with
  | mk n stmts =>
    rw [checkBlock] at h
    rw [Block.Grammatical] at hg
    obtain ⟨hd, hs⟩ := passes_append.mp h
    exact .mk (Findings.include_declares.mp hd.2) (checkStmts_sound hsym ret stmts scope hscope hg hs)

end

/-! ## Declarations -/

/-- A list without repetition, none of whose elements was seen before. -/
def Fresh (seen names : List String) : Prop := names.Nodup ∧ ∀ n ∈ names, n ∉ seen

theorem fresh_cons : Fresh seen (name :: names) ↔ name ∉ seen ∧ Fresh (name :: seen) names := by
  rw [Fresh, Fresh, List.nodup_cons, List.forall_mem_cons]
  simp only [List.mem_cons, not_or]
  constructor
  · rintro ⟨⟨hname, hnodup⟩, hseen, hrest⟩
    exact ⟨hseen, hnodup, fun n hn => ⟨fun heq => hname (heq ▸ hn), hrest n hn⟩⟩
  · rintro ⟨hseen, hnodup, hrest⟩
    exact ⟨⟨fun hn => (hrest name hn).1 rfl, hnodup⟩, hseen, fun n hn => (hrest n hn).2⟩

theorem fresh_nil {names : List String} : Fresh [] names ↔ names.Nodup := by simp [Fresh]

theorem quiet_fieldReports (hp : ∀ g ∈ fields, g.Grammatical) :
    Quiet (fieldReports s struct seen fields) ↔
      Fresh seen (fields.map TypedName.name) ∧ ∀ g ∈ fields, g.ty.Declared s ∧ g.ty ≠ .void := by
  induction fields generalizing seen with
  | nil => simp [fieldReports, Fresh, Quiet]
  | cons g rest ih =>
    obtain ⟨hg, hp⟩ := List.forall_mem_cons.mp hp
    simp [fieldReports, harmless_declaredTypeIssues hg.2, ih hp, fresh_cons, Issue.level]
    tauto

theorem quiet_structReports {d : StructDef} (hp : ∀ g ∈ d.fields, g.Grammatical) :
    Quiet (structReports s d) ↔ (d.fields.map TypedName.name).Nodup ∧
      (∀ g ∈ d.fields, g.ty.Declared s ∧ g.ty ≠ .void) ∧ holdsItself s d = false := by
  rw [structReports, quiet_append, quiet_fieldReports hp, fresh_nil, and_assoc]
  cases holdsItself s d <;> simp [Quiet, reportsAt, Issue.report, Issue.level, Diagnostic.isError]

theorem quiet_structsReports {ds : List StructDef} : Quiet (structsReports s seen ds) ↔
    Fresh seen (ds.map StructDef.name) ∧ ∀ d ∈ ds, Quiet (structReports s d) := by
  induction ds generalizing seen with
  | nil => simp [structsReports, Fresh, Quiet]
  | cons d rest ih =>
    rw [structsReports, quiet_append, ih, List.map_cons, fresh_cons, List.forall_mem_cons]
    by_cases hd : d.name ∈ seen
    · simp [hd, Issue.level]
    · rw [if_neg (by simpa using hd)]
      tauto

theorem quiet_foreignReports (hp : d.Grammatical) :
    Quiet (foreignReports s d) ↔ (∀ q ∈ d.params, q.ty.Declared s) ∧ d.ret.Declared s := by
  simp only [foreignReports, quiet_append, quiet_flatMap, quiet_reportsAt,
    harmless_declaredTypeIssues hp.ret]
  exact and_congr_left fun _ =>
    forall₂_congr fun q hq => harmless_declaredTypeIssues (hp.params q hq).2

theorem quiet_bindParams (hp : ∀ q ∈ params, q.Grammatical) :
    Quiet (bindParams s seen scope params).2 ↔
      Fresh seen (params.map TypedName.name) ∧ ∀ q ∈ params, q.ty.Declared s := by
  induction params generalizing seen scope with
  | nil => simp [bindParams, Fresh, Quiet]
  | cons q rest ih =>
    obtain ⟨hq, hp⟩ := List.forall_mem_cons.mp hp
    simp [bindParams, harmless_declaredTypeIssues hq.2, ih hp, fresh_cons, Issue.level]
    tauto

theorem bindParams_fst (h : ∀ q ∈ params, q.ty.Declared s) : (bindParams s seen scope params).1 =
      params.foldl (fun scope q => scope.define q.name ⟨q.ty, false, false⟩) scope := by
  induction params generalizing seen scope with
  | nil => rfl
  | cons q rest ih =>
    obtain ⟨hq, h⟩ := List.forall_mem_cons.mp h
    simp only [bindParams, declaredTypeIssues_eq_nil hq, List.isEmpty_nil, if_true]
    exact ih h

theorem quiet_bindReceiver (hp : ∀ ty ∈ g.receiver, ∃ name, ty = .struct name) :
    Quiet (bindReceiver s scope g).2 ↔ ∀ ty ∈ g.receiver, ty.Declared s := by
  unfold bindReceiver
  cases hr : g.receiver with
  | none => simp [Quiet]
  | some ty =>
    obtain ⟨name, rfl⟩ := hp ty hr
    have hissues : Harmless (declaredTypeIssues s (.struct name)) ↔ _ :=
      harmless_declaredTypeIssues (by simp [Ty.Proper])
    simp only [Option.mem_def, Option.some.injEq, forall_eq', ← hissues]
    cases declaredTypeIssues s (.struct name) with
    | nil => simp [Quiet]
    | cons i is => exact quiet_reportsAt

theorem bindReceiver_fst (h : ∀ ty ∈ g.receiver, ty.Declared s) :
    (bindReceiver s Scope.empty.push g).1 = receiverScope g.receiver := by
  unfold bindReceiver
  cases hr : g.receiver with
  | none => rfl
  | some ty =>
    simp only [declaredTypeIssues_eq_nil (h ty hr)]
    rfl

theorem quiet_openScope {g : FnDef} (hg : g.Grammatical) : Quiet (openScope s g.toFnHeader).2 ↔
    (∀ ty ∈ g.types, ty.Declared s) ∧ (g.params.map TypedName.name).Nodup := by
  simp only [openScope, quiet_append, quiet_reportsAt, harmless_declaredTypeIssues hg.ret,
    quiet_bindReceiver hg.receiver, quiet_bindParams hg.params, fresh_nil, FnHeader.forall_types]
  tauto

theorem openScope_fst {g : FnHeader} (h : ∀ ty ∈ g.types, ty.Declared s) :
    (openScope s g).1 = g.startScope := by
  obtain ⟨hreceiver, hparams, -⟩ := FnHeader.forall_types.mp h
  simp only [openScope, bindReceiver_fst hreceiver, bindParams_fst hparams]
  rfl

theorem sound_startScope {g : FnHeader} (h : ∀ ty ∈ g.types, ty.Declared s) :
    g.startScope.Sound s := by
  obtain ⟨hreceiver, hparams, -⟩ := FnHeader.forall_types.mp h
  have hfold : ∀ (params : List TypedName) (scope : Scope Binding), scope.Sound s →
      (∀ q ∈ params, q.ty.Declared s) →
        (params.foldl (fun scope q => scope.define q.name ⟨q.ty, false, false⟩) scope).Sound s := by
    intro params
    induction params with
    | nil => exact fun _ hscope _ => hscope
    | cons q rest ih =>
      intro scope hscope hq
      obtain ⟨hd, hq⟩ := List.forall_mem_cons.mp hq
      exact ih _ (hscope.define hd) hq
  refine hfold _ _ ?_ hparams
  have hempty : Scope.empty.push.Sound s := nofun
  cases hr : g.receiver with
  | none => exact hempty
  | some ty => exact hempty.define (hreceiver ty hr)

theorem clean_checkFunctions {fns : List FnDef} : (checkFunctions s seen fns).Clean ↔
    Fresh seen ((fns.filter fun g => g.name != entryPoint).map fun g => g.linkage) ∧
      ∀ g ∈ fns, (checkFunction s g).Clean := by
  induction fns generalizing seen with
  | nil => exact iff_of_true rfl (by simp [Fresh])
  | cons g rest ih =>
    rw [checkFunctions, List.forall_mem_cons]
    by_cases hmain : g.name = entryPoint
    · simp [hmain, ih]
      tauto
    · simp [hmain, ih, fresh_cons, Issue.level]
      tauto

theorem include_checkFunctions (h : f.Include (checkFunctions s seen fns)) :
    ∀ g ∈ fns, f.Include (checkFunction s g) := by
  induction fns generalizing seen with
  | nil => exact List.forall_mem_nil _
  | cons g rest ih =>
    rw [checkFunctions] at h
    split at h <;> simp only [Findings.include_append] at h
    · exact List.forall_mem_cons.mpr ⟨h.1, ih h.2⟩
    · exact List.forall_mem_cons.mpr ⟨h.1.1, ih h.2⟩

theorem quiet_entryPointReports {fns : List FnDef} : Quiet (entryPointReports fns) ↔
    ∃ g, (fns.filter fun g => g.name == entryPoint) = [g] := by
  unfold entryPointReports
  split
  · next heq => simp [heq, Quiet, Diagnostic.isError]
  · next g extra heq => cases extra <;> simp [heq, Quiet, reportsAt, Issue.report, Issue.level,
      Diagnostic.isError]

/-! ## Node numbers of findings -/

theorem keyed_checkFunction (s : Symbols) (g : FnDef) :
    Keyed (checkFunction s g) g.body.exprs g.body.lets g.body.blocks :=
  (finds_checkBlock g.ret _ g.body).toKeyed.reports_append _

theorem checkFunctions_keyed (s : Symbols) (seen : List String) (fns : List FnDef) :
    Keyed (checkFunctions s seen fns) (fns.flatMap fun g => g.body.exprs)
      (fns.flatMap fun g => g.body.lets) (fns.flatMap fun g => g.body.blocks) := by
  induction fns generalizing seen with
  | nil => exact ⟨.refl _, rfl⟩
  | cons g rest ih =>
    rw [checkFunctions]
    split
    · exact (keyed_checkFunction s g).append (ih seen)
    · exact ((keyed_checkFunction s g).reports _).append (ih _)

theorem lookup_eq_some_of_mem {table : List (Nat × α)}
    (hn : (table.map Prod.fst).Nodup) (hm : (id, x) ∈ table) : table.lookup id = some x := by
  induction table with
  | nil => cases hm
  | cons p rest ih =>
    obtain ⟨hp, hn⟩ := List.nodup_cons.mp hn
    rw [List.lookup_cons]
    rcases List.mem_cons.mp hm with rfl | hm
    · simp
    · have hne : id ≠ p.1 := fun heq => hp (heq ▸ List.mem_map_of_mem hm)
      rw [beq_false_of_ne hne]
      exact ih hn hm

namespace Keyed

variable (h : Keyed a es ds bs) (hn : (idsOfNodes es ds bs).Nodup)
include h hn

theorem nodup_types : (a.types.map Prod.fst).Nodup := by
  refine h.types.nodup_iff.mpr (hn.sublist ?_)
  rw [idsOfNodes, idsOfNodes, List.map_nil, List.append_nil]
  exact List.sublist_append_left ..

theorem nodup_declared : (a.declared.map Prod.fst).Nodup := by
  rw [h.declared, List.map_map]
  exact hn.sublist (List.sublist_append_right ..)

theorem included (s : Symbols) : Findings.Include ⟨a.typeTable, a.declaredIn, s⟩ a := by
  constructor
  · intro id ty hm
    rw [Analysis.getElem?_typeTable]
    exact lookup_eq_some_of_mem (h.nodup_types hn) hm
  · intro id decls hm
    simp only [Analysis.declaredIn, lookup_eq_some_of_mem (h.nodup_declared hn) hm, Option.getD_some]

end Keyed

end Typing

namespace Program

variable {p : Program}

theorem found_keyed (p : Program) : Typing.Keyed p.found p.exprs p.lets p.blocks :=
  ((Typing.checkFunctions_keyed p.symbols [] p.functions).reports_append _).reports _

theorem analyze_eq (h : p.ids.Nodup) : p.analyze = p.found :=
  analyze_eq_found (p.found_keyed.nodup_declared (p.ids_perm.nodup_iff.mp h))

namespace Grammatical

variable (h : p.Grammatical)
include h

theorem struct (hm : d ∈ p.structs) : ∀ g ∈ d.fields, g.Grammatical := by
  simp only [structs, List.mem_filterMap] at hm
  obtain ⟨i, hi, heq⟩ := hm
  cases i <;> cases heq
  exact h.items _ hi

theorem function (hm : g ∈ p.functions) : g.Grammatical := by
  simp only [functions, List.mem_filterMap] at hm
  obtain ⟨i, hi, heq⟩ := hm
  cases i <;> cases heq
  exact h.items _ hi

theorem foreign (hm : d ∈ p.foreigns) : d.Grammatical := by
  simp only [foreigns, List.mem_filterMap] at hm
  obtain ⟨i, hi, heq⟩ := hm
  cases i <;> cases heq
  exact h.items _ hi

end Grammatical

/-- A program that reads well has no error exactly if its declarations and each body are in order. -/
theorem Grammatical.clean_iff (hg : p.Grammatical) : p.analyze.hasErrors = false ↔
    ((p.structs.map StructDef.name).Nodup ∧ ∀ d ∈ p.structs, (d.fields.map TypedName.name).Nodup ∧
      (∀ g ∈ d.fields, g.ty.Declared p.symbols ∧ g.ty ≠ .void) ∧
      Typing.holdsItself p.symbols d = false) ∧
    (∀ d ∈ p.foreigns, (∀ q ∈ d.params, q.ty.Declared p.symbols) ∧ d.ret.Declared p.symbols) ∧
    (((p.functions.filter fun g => g.name != entryPoint).map fun g => g.linkage).Nodup ∧
      ∀ g ∈ p.functions, ((∀ ty ∈ g.types, ty.Declared p.symbols) ∧
        (g.params.map TypedName.name).Nodup) ∧
        (Typing.checkBlock p.symbols g.ret g.startScope g.body).Clean) ∧
    ∃ g, (p.functions.filter fun g => g.name == entryPoint) = [g] := by
  rw [analyze_eq hg.ids_nodup]
  change p.found.Clean ↔ _
  simp only [found, Analysis.clean_append, Analysis.clean_reports, Typing.quiet_structsReports,
    quiet_flatMap, Typing.clean_checkFunctions, Typing.quiet_entryPointReports, Typing.fresh_nil,
    and_assoc]
  refine and_congr_right fun _ => and_congr (forall₂_congr fun d hd => ?_) (and_congr
    (forall₂_congr fun d hd => ?_) (and_congr_right fun _ => and_congr_left fun _ =>
      forall₂_congr fun g hm => ?_))
  · exact Typing.quiet_structReports (hg.struct hd)
  · exact Typing.quiet_foreignReports (hg.foreign hd)
  · rw [Typing.checkFunction, Analysis.clean_append, Analysis.clean_reports,
      Typing.quiet_openScope (hg.function hm), ← and_assoc]
    exact and_congr_right fun h => by rw [Typing.openScope_fst h.1]

theorem Grammatical.sound_symbols (hg : p.Grammatical)
    (hstructs : ∀ d ∈ p.structs, ∀ g ∈ d.fields, g.ty.Declared p.symbols ∧ g.ty ≠ .void)
    (hforeigns : ∀ d ∈ p.foreigns,
      (∀ q ∈ d.params, q.ty.Declared p.symbols) ∧ d.ret.Declared p.symbols)
    (hfunctions : ∀ g ∈ p.functions, ∀ ty ∈ g.types, ty.Declared p.symbols) : p.symbols.Sound := by
  have hheader := fun g hm => FnHeader.forall_types.mp (hfunctions g hm)
  refine ⟨hstructs, fun d hd => (hforeigns d hd).1, fun d hd => (hforeigns d hd).2, ?_, ?_, ?_⟩ <;>
    simp only [symbols, List.forall_mem_map] <;> intro g hm
  · exact (hheader g hm).2.1
  · exact (hheader g hm).2.2
  · exact fun ty hty => ⟨(hheader g hm).1 ty hty, (hg.function hm).receiver ty hty⟩

theorem Grammatical.include_body (hg : p.Grammatical) (hm : g ∈ p.functions)
    (htypes : ∀ ty ∈ g.types, ty.Declared p.symbols) :
    p.findings.Include (Typing.checkBlock p.symbols g.ret g.startScope g.body) := by
  have h : p.findings.Include p.found := by
    rw [findings, analyze_eq hg.ids_nodup]
    exact p.found_keyed.included (p.ids_perm.nodup_iff.mp hg.ids_nodup) p.symbols
  simp only [found, Findings.include_append] at h
  have h := Typing.include_checkFunctions h.1.2 g hm
  rw [Typing.checkFunction, Findings.include_append, Typing.openScope_fst htypes] at h
  exact h.2

theorem Grammatical.wellTyped (hg : p.Grammatical) (h : p.analyze.hasErrors = false) :
    p.WellTyped := by
  obtain ⟨⟨hnames, hstructs⟩, hforeigns, ⟨hlinkage, hfunctions⟩, hentry⟩ := hg.clean_iff.mp h
  have hsym := hg.sound_symbols (fun d hd => (hstructs d hd).2.1) hforeigns
    fun g hm => (hfunctions g hm).1.1
  refine ⟨hsym, hnames, fun d hd => (hstructs d hd).1, fun d hd => (hstructs d hd).2.2,
    fun g hm => (hfunctions g hm).1.2, fun g hm => ?_, hlinkage, hentry⟩
  obtain ⟨⟨htypes, -⟩, hclean⟩ := hfunctions g hm
  exact Typing.checkBlock_sound hsym g.ret g.body _ (Typing.sound_startScope htypes)
    (hg.function hm).body ⟨hclean, hg.include_body hm htypes⟩

/-- Whether a text is a program without errors that passes a test. -/
def accepts (source : String) (test : Program → Bool) : Bool :=
  match Program.parse source 0 0 with
  | .ok (p, _) => !p.analyze.hasErrors && test p
  | .error _ => false

theorem exists_of_accepts (h : accepts source test = true) : ∃ p next,
      Program.parse source 0 0 = .ok (p, next) ∧ p.analyze.hasErrors = false ∧ test p = true := by
  unfold accepts at h
  split at h
  · next p next hparse => exact ⟨p, next, hparse, by simpa using h⟩
  · cases h

/-- A program with a struct, a method, a branch and a name declared twice. -/
def sampleSource : String :=
  "struct P { x: i32 } fn P.get(k: i32) -> i32 { return self.x + k }
  fn main() -> i32 {
    let mut p = new P(1) p = new P(p.x + 1)
    if p.x > 0 { let p = p.get(2) return p }
    return 0
  }"

/-- Whether a text is a program that passes a test, be it with errors. -/
def parses (source : String) (test : Program → Bool) : Bool :=
  match Program.parse source 0 0 with
  | .ok (p, _) => test p
  | .error _ => false

theorem exists_of_parses (h : parses source test = true) : ∃ p next,
      Program.parse source 0 0 = .ok (p, next) ∧ test p = true := by
  unfold parses at h
  split at h
  · next p next hparse => exact ⟨p, next, hparse, h⟩
  · cases h

/-- A program with a wrong return, code after a return and a branch in a branch. -/
def brokenSource : String :=
  "struct P { x: i32 } fn P.get(k: i32) -> i32 { return new P(self.x).x + k }
  fn main(a: i32) -> i32 {
    if a > 0 { if a > 1 { return true } else { let b = new P(a).get(a) return b } }
    return 1 return 2
  }"

end Program

end StructLang
