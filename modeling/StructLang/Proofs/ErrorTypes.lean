import StructLang.Proofs.Acceptance
import StructLang.Proofs.Loading

/-!
# Expressions without a type

An expression has the type `Ty.error` exactly if something wrong was reported about it or a part of it:
no mistake is passed over because another part has no type, and nothing that was reported keeps a type
that the expression around it could use.
-/

namespace StructLang

open Typing

theorem Expr.self_mem_parts (e : Expr) : e ∈ e.parts := by
  cases e <;> simp [parts]

namespace Typing

/-- No name of a program or of a scope has the type of a mistake. -/
structure Usable (s : Symbols) (scope : Scope Binding) : Prop where
  binding : ∀ name b, scope.lookup? name = some b → b.ty ≠ .error
  result : ∀ name args callee, s.resolve name args = .ok callee → callee.ret ≠ .error
  field : ∀ struct member index ty, s.field? (.struct struct) member = some (index, ty) → ty ≠ .error

/-! ## Rules -/

/-- With what was found about the parts, the outcome of a rule is a type unless there is an error. -/
def Verdict.Fits (v : Verdict) (parts : Analysis) : Prop :=
  v.ty ≠ .error ↔ parts.Clean ∧ Harmless v.issues

theorem Verdict.fits_accept (ht : t ≠ .error) (hparts : parts.Clean) : (accept t).Fits parts := by
  simp [Fits, accept, ht, hparts]

theorem Verdict.fits_reject (hi : i.level = .error) : (reject i).Fits parts := by
  simp [Fits, reject, hi]

theorem Verdict.fits_whenTyped (hts : (∀ t ∈ ts, t ≠ .error) ↔ parts.Clean)
    (hv : (∀ t ∈ ts, t ≠ .error) → parts.Clean → v.Fits parts) : (whenTyped ts v).Fits parts := by
  by_cases h : ∀ t ∈ ts, t ≠ .error
  · rw [whenTyped_eq h]
    exact hv h (hts.mp h)
  · have herror : ts.contains .error = true := by
      rw [List.contains_iff_mem]
      simpa using h
    rw [whenTyped, if_pos herror]
    exact ⟨fun hne => absurd rfl hne, fun hclean => absurd (hts.mpr hclean.1) h⟩

theorem varRule_fits (h : Usable s scope) (name : String) : (varRule scope name).Fits ∅ := by
  unfold varRule
  split
  · next b hb => exact Verdict.fits_accept (h.binding name b hb) rfl
  · exact Verdict.fits_reject rfl

theorem unaryRule_fits (ht : t ≠ .error) (hparts : parts.Clean) : (unaryRule op t).Fits parts := by
  unfold unaryRule
  split
  · exact Verdict.fits_accept ht hparts
  · exact Verdict.fits_reject rfl

theorem binaryRule_fits (hl : l ≠ .error) (hparts : parts.Clean) :
    (binaryRule op l r).Fits parts := by
  unfold binaryRule
  split
  · exact Verdict.fits_reject rfl
  · split
    · refine Verdict.fits_accept ?_ hparts
      split
      · exact Ty.noConfusion
      · exact hl
    · exact Verdict.fits_reject rfl

theorem castRule_fits (ht : t ≠ .error) (hparts : parts.Clean) :
    (castRule t target).Fits parts := by
  unfold castRule
  split
  -- a cast to the same type is reported, but as a warning
  · next heq => simp [Verdict.Fits, ← heq, ht, hparts, Issue.level]
  · split
    · next hcast =>
      refine Verdict.fits_accept ?_ hparts
      rintro rfl
      simp [Ty.castsTo, Ty.isNumber, Ty.isInt, Ty.isFloat] at hcast
    · exact Verdict.fits_reject rfl

theorem callRule_fits (h : Usable s scope) (name : String) (hparts : parts.Clean) :
    (callRule s name ts).Fits parts := by
  unfold callRule
  split
  · next callee hr => exact Verdict.fits_accept (h.result name ts callee hr) hparts
  · exact Verdict.fits_reject rfl
  · exact Verdict.fits_reject rfl

theorem constructRule_fits (hts : (∀ t ∈ ts, t ≠ .error) ↔ parts.Clean) :
    (constructRule s name ts).Fits parts := by
  unfold constructRule
  split
  · exact Verdict.fits_reject rfl
  · refine Verdict.fits_whenTyped hts fun _ hparts => ?_
    split
    · exact Verdict.fits_accept Ty.noConfusion hparts
    · exact Verdict.fits_reject rfl

theorem accessRule_fits (h : Usable s scope) (member : String) (hparts : parts.Clean) :
    (accessRule s t member).Fits parts := by
  unfold accessRule
  split
  · next struct =>
    split
    · next index ty hf => exact Verdict.fits_accept (h.field struct member index ty hf) hparts
    · exact Verdict.fits_reject rfl
  · exact Verdict.fits_reject rfl

/-! ## Expressions -/

/-- What was found about an expression is part of an analysis, with its type in the table, and it has no
type exactly if there is an error among its reports. -/
structure Settled (s : Symbols) (scope : Scope Binding) (a : Analysis) (e : Expr) : Prop where
  reports : (infer s scope e).2.diagnostics <:+: a.diagnostics
  types : (infer s scope e).2.types <:+: a.types
  recorded : (e.id, (infer s scope e).1) ∈ a.types
  error_iff : (infer s scope e).1 = .error ↔ (infer s scope e).2.hasErrors = true

theorem Settled.mono (h : Settled s scope a e)
    (hreports : a.diagnostics <:+: b.diagnostics) (htypes : a.types <:+: b.types) :
    Settled s scope b e :=
  ⟨h.reports.trans hreports, h.types.trans htypes, htypes.subset h.recorded, h.error_iff⟩

theorem Settled.typed_iff (h : Settled s scope a e) :
    (infer s scope e).1 ≠ .error ↔ (infer s scope e).2.Clean := by
  rw [Ne, h.error_iff, Bool.not_eq_true]
  rfl

theorem Settled.append_left (h : Settled s scope a e) (b : Analysis) : Settled s scope (a ++ b) e :=
  h.mono (List.prefix_append ..).isInfix (List.prefix_append ..).isInfix

theorem Settled.append_right (h : Settled s scope b e) (a : Analysis) :
    Settled s scope (a ++ b) e :=
  h.mono (List.suffix_append ..).isInfix (List.suffix_append ..).isInfix

/-- If the rule of an expression fits what was found about its parts, the expression is settled too. -/
theorem settled_conclude (he : infer s scope e = conclude e.node parts v)
    (hes : ∀ e' ∈ es, Settled s scope parts e') (hv : v.Fits parts) :
    ∀ e' ∈ es ++ [e], Settled s scope (infer s scope e).2 e' := by
  have hclean : (infer s scope e).2.Clean ↔ parts.Clean ∧ Harmless v.issues := by
    rw [he, conclude, Analysis.clean_append, Analysis.clean_append, Analysis.clean_reports]
    exact (and_iff_left rfl).trans (and_congr_right fun _ => quiet_reportsAt)
  intro e' hmem
  rcases List.mem_append.mp hmem with hmem | hmem
  · rw [he]
    exact ((hes e' hmem).append_left _).append_left _
  · cases List.mem_singleton.mp hmem
    refine ⟨List.infix_rfl, List.infix_rfl, ?_, ?_⟩
    · rw [he]
      exact List.mem_append_right _ (List.mem_singleton.mpr rfl)
    · have hty : (infer s scope e).1 = v.ty := by rw [he, conclude]
      rw [← not_iff_not, Bool.not_eq_true, hty]
      exact hv.trans hclean.symm

theorem settled_single (hparts : ∀ e' ∈ e1.parts, Settled s scope (infer s scope e1).2 e')
    (he : infer s scope e =
      conclude e.node (infer s scope e1).2 (.whenTyped [(infer s scope e1).1] v))
    (hv : (infer s scope e1).1 ≠ .error → (infer s scope e1).2.Clean → v.Fits (infer s scope e1).2) :
    ∀ e' ∈ e1.parts ++ [e], Settled s scope (infer s scope e).2 e' := by
  refine settled_conclude he hparts (Verdict.fits_whenTyped ?_ fun ht => hv (ht _ (.head _)))
  simpa using (hparts e1 e1.self_mem_parts).typed_iff

mutual

/-- Every part of an expression is settled, the expression itself among them. -/
theorem infer_settled (h : Usable s scope) (e : Expr)
    : ∀ e' ∈ e.parts, Settled s scope (infer s scope e).2 e' := by
  have hnone : ∀ e' ∈ ([] : List Expr), Settled s scope ∅ e' := by simp
  cases e with
  | integer n _ long =>
    refine settled_conclude (by rw [infer]; rfl) hnone (Verdict.fits_accept ?_ rfl)
    cases long <;> exact Ty.noConfusion
  | float n _ single =>
    refine settled_conclude (by rw [infer]; rfl) hnone (Verdict.fits_accept ?_ rfl)
    cases single <;> exact Ty.noConfusion
  | bool => exact settled_conclude (by rw [infer]; rfl) hnone (Verdict.fits_accept Ty.noConfusion rfl)
  | text => exact settled_conclude (by rw [infer]; rfl) hnone (Verdict.fits_accept Ty.noConfusion rfl)
  | var n name => exact settled_conclude (by rw [infer]; rfl) hnone (varRule_fits h name)
  | unary n op e => exact settled_single (infer_settled h e) (by rw [infer]; rfl) unaryRule_fits
  | binary n op l r =>
    have hl := infer_settled h l
    have hr := infer_settled h r
    refine settled_conclude (by rw [infer]; rfl) (List.forall_mem_append.mpr ⟨?_, ?_⟩)
      (Verdict.fits_whenTyped ?_ fun ht hparts => ?_)
    · exact fun e' hm => (hl e' hm).append_left _
    · exact fun e' hm => (hr e' hm).append_right _
    · rw [List.forall_mem_cons, List.forall_mem_singleton, Analysis.clean_append]
      exact and_congr (hl l l.self_mem_parts).typed_iff (hr r r.self_mem_parts).typed_iff
    · exact binaryRule_fits (List.forall_mem_cons.mp ht).1 hparts
  | cast n e target => exact settled_single (infer_settled h e) (by rw [infer]; rfl) castRule_fits
  | call n name args =>
    obtain ⟨hargs, hts⟩ := inferAll_settled h args
    exact settled_conclude (by rw [infer]; rfl) hargs
      (Verdict.fits_whenTyped hts fun _ hparts => callRule_fits h name hparts)
  | construct n name args =>
    obtain ⟨hargs, hts⟩ := inferAll_settled h args
    exact settled_conclude (by rw [infer]; rfl) hargs (constructRule_fits hts)
  | access n e member =>
    exact settled_single (infer_settled h e) (by rw [infer]; rfl) fun _ => accessRule_fits h member

theorem inferAll_settled (h : Usable s scope) (es : List Expr) :
    (∀ e' ∈ partsOf es, Settled s scope (inferAll s scope es).2 e') ∧
      ((∀ t ∈ (inferAll s scope es).1, t ≠ .error) ↔ (inferAll s scope es).2.Clean) := by
  cases es with
  | nil => exact ⟨by simp [partsOf], iff_of_true (by simp [inferAll]) rfl⟩
  | cons e es =>
    have he := infer_settled h e
    obtain ⟨hes, hts⟩ := inferAll_settled h es
    rw [partsOf, inferAll, List.forall_mem_append, List.forall_mem_cons, Analysis.clean_append]
    refine ⟨⟨fun e' hm => ?_, fun e' hm => ?_⟩, and_congr (he e e.self_mem_parts).typed_iff hts⟩
    · exact (he e' hm).append_left _
    · exact (hes e' hm).append_right _

end

end Typing

theorem Program.Grammatical.usable {p : Program} (hg : p.Grammatical)
    (hscope : ∀ name b, scope.lookup? name = some b → b.ty ≠ .error) : Usable p.symbols scope := by
  refine ⟨hscope, fun name args callee hr => ?_, fun struct member index ty hf => ?_⟩
  · rcases Symbols.resolve_eq_ok hr with ⟨d, hd, rfl, -⟩ | ⟨f, hf, rfl, -⟩
    · exact (hg.foreign hd).ret.2
    · obtain ⟨g, hm, rfl⟩ := List.mem_map.mp hf
      exact (hg.function hm).ret.2
  · obtain ⟨d, g, hd, -, hfield, rfl⟩ := Symbols.field?_eq_some hf
    exact (hg.struct (Symbols.struct?_eq_some hd).1 g (List.mem_of_getElem? hfield)).2.2

/-- In a scope whose names have types, an expression and each of its parts has no type exactly if checking
it reports an error; what is found about a part is in the findings about the whole. -/
theorem error_types_reported {p : Program} (hp : p.Sourced)
    (hscope : ∀ name b, scope.lookup? name = some b → b.ty ≠ .error) (e : Expr) :
    ∀ e' ∈ e.parts, Settled p.symbols scope (infer p.symbols scope e).2 e' :=
  infer_settled (hp.grammatical.usable hscope) e

theorem error_types_reported_broken : ∃ p next e,
    Program.parse Program.brokenSource 0 0 = .ok (p, next) ∧ e ∈ p.exprs ∧ e.parts.length = 3 ∧
      (infer p.symbols .empty e).1 = .error ∧
      ∀ e' ∈ e.parts, Settled p.symbols .empty (infer p.symbols .empty e).2 e' := by
  obtain ⟨p, next, hparse, htest⟩ := Program.exists_of_parses
    (show Program.parses Program.brokenSource (fun p => p.exprs.any fun e => e.parts.length == 3 &&
      (infer p.symbols .empty e).1 == .error) = true by decide +kernel)
  obtain ⟨e, he, htest⟩ := List.any_eq_true.mp htest
  rw [Bool.and_eq_true, beq_iff_eq, beq_iff_eq] at htest
  exact ⟨p, next, e, hparse, he, htest.1, htest.2,
    error_types_reported (.parsed hparse) (by simp [Scope.lookup?, Scope.bindings, Scope.empty]) e⟩

end StructLang
