import StructLang.Proofs.Acceptance
import StructLang.Proofs.TypeSystem

/-!
# Checking decides the type system

A program that was read has no error exactly if the language admits it, and then the types that
checking records are those of the derivations. One direction turns what checking accepts into a
derivation; the other follows a derivation and shows that checking reports nothing along it.
-/

namespace StructLang

/-! ## Scopes as contexts -/

def Scope.context (scope : Scope Binding) : List Variable :=
  (scope.bindings.map fun x => ⟨x.1, x.2.ty, x.2.isReceiver⟩).reverse

theorem Scope.context_define (scope : Scope Binding) (name : String) (b : Binding) :
    (scope.define name b).context = scope.context ++ [⟨name, b.ty, b.isReceiver⟩] := by
  simp [context]

theorem binds_append_singleton :
    Binds (Γ ++ [w]) name v ↔ w.name = name ∧ v = w ∨ w.name ≠ name ∧ Binds Γ name v := by
  constructor
  · rintro ⟨older, newer, heq, hname, hnewer⟩
    rcases List.eq_nil_or_concat newer with rfl | ⟨newer, x, rfl⟩
    · obtain ⟨-, hw⟩ := List.append_inj' heq rfl
      cases hw
      exact .inl ⟨hname, rfl⟩
    · rw [List.concat_eq_append, ← List.cons_append, ← List.append_assoc] at heq
      obtain ⟨rfl, hx⟩ := List.append_inj' heq rfl
      cases hx
      refine .inr ⟨hnewer w (by simp), older, newer, rfl, hname, fun y hy => hnewer y ?_⟩
      simp [hy]
  · rintro (⟨hname, rfl⟩ | ⟨hne, older, newer, rfl, hname, hnewer⟩)
    · exact ⟨Γ, [], rfl, hname, by simp⟩
    · refine ⟨older, newer ++ [w], by simp, hname, fun y hy => ?_⟩
      rcases List.mem_append.mp hy with hy | hy
      · exact hnewer y hy
      · rwa [List.mem_singleton.mp hy]

variable {scope : Scope Binding}

theorem binds_context : Binds scope.context name v ↔
      ∃ b, scope.lookup? name = some b ∧ v = ⟨name, b.ty, b.isReceiver⟩ := by
  unfold Scope.context Scope.lookup?
  induction scope.bindings with
  | nil => simp [Binds]
  | cons x rest ih =>
    rw [List.map_cons, List.reverse_cons, binds_append_singleton, ih, List.lookup_cons]
    by_cases hx : name = x.1
    · subst hx
      simp
    · simp [beq_false_of_ne hx, Ne.symm hx]

/-! ## Declarations -/

namespace Symbols

variable {s : Symbols} {callee : Callee}

theorem isFirst_iff_find? (hp : ∀ x, p x = true ↔ P x) : xs.find? p = some x ↔ IsFirst P xs x := by
  rw [List.find?_eq_some_iff_append]
  constructor
  · rintro ⟨hx, before, after, rfl, hbefore⟩
    refine ⟨before, after, rfl, (hp x).mp hx, fun y hy h => ?_⟩
    simpa [(hp y).mpr h] using hbefore y hy
  · rintro ⟨before, after, rfl, hx, hbefore⟩
    refine ⟨(hp x).mpr hx, before, after, rfl, fun y hy => ?_⟩
    rw [Bool.not_eq_true', Bool.eq_false_iff]
    exact fun h => hbefore y hy ((hp y).mp h)

/-- Resolution finds the declaration that a call means. -/
theorem resolve_eq_ok_iff : s.resolve name args = .ok callee ↔ s.Calls name args callee := by
  have hforeign : ∀ d : ForeignDecl, (d.name == name && d.params.map TypedName.ty == args) = true ↔
      d.name = name ∧ d.params.map TypedName.ty = args := fun d => by simp
  have huser : ∀ g : FnHeader, (g.name == name && g.signature == args) = true ↔
      g.name = name ∧ g.signature = args := fun g => by simp
  unfold resolve
  constructor
  · intro h
    split at h
    · next d hd =>
      cases h
      exact .foreign ((isFirst_iff_find? hforeign).mp hd)
    · next hno =>
      split at h
      · next g hg =>
        cases h
        refine .user (fun d hd hfits => ?_) ((isFirst_iff_find? huser).mp hg)
        exact List.find?_eq_none.mp hno d hd ((hforeign d).mpr hfits)
      · split at h <;> cases h
  · intro h
    cases h with
    | foreign h => rw [(isFirst_iff_find? hforeign).mpr h]
    | user hno h =>
      have hnone : (s.foreigns.find? fun d => d.name == name && d.params.map TypedName.ty == args) =
          none := by
        rw [List.find?_eq_none]
        exact fun d hd hfits => hno d hd ((hforeign d).mp hfits)
      rw [hnone, (isFirst_iff_find? huser).mpr h]

/-- No two structs share a name, and no two fields of a struct do. -/
structure Unambiguous (s : Symbols) : Prop where
  structs : (s.structs.map StructDef.name).Nodup
  fields : ∀ d ∈ s.structs, (d.fields.map TypedName.name).Nodup

theorem contains_of_holds (h : s.Holds outer held) : Contains s.structs outer held := by
  obtain ⟨d, hd, hinner⟩ := h
  obtain ⟨hmem, hname⟩ := struct?_eq_some hd
  exact ⟨d, hmem, hname, Typing.mem_fieldStructs.mp hinner⟩

namespace Unambiguous

variable (hu : s.Unambiguous)
include hu

theorem struct?_name (hd : d ∈ s.structs) : s.struct? d.name = some d :=
  Symbols.struct?_name hu.structs hd

theorem field?_name (hd : d ∈ s.structs) (hg : g ∈ d.fields) :
    ∃ i, s.field? (.struct d.name) g.name = some (i, g.ty) := by
  obtain ⟨i, hi⟩ : ∃ i, d.field? g.name = some (i, g) := by
    unfold StructDef.field?
    cases h : d.fields.zipIdx.find? fun p => p.1.name == g.name with
    | none =>
      obtain ⟨i, hi⟩ := List.mem_iff_getElem?.mp hg
      simpa using List.find?_eq_none.mp h (g, i) (List.mem_zipIdx_iff_getElem?.mpr hi)
    | some x =>
      have hmem := List.mem_zipIdx_iff_getElem?.mp (List.mem_of_find?_eq_some h)
      have hname : x.1.name = g.name := by simpa using List.find?_some h
      rw [← List.inj_on_of_nodup_map (hu.fields d hd) (List.mem_of_getElem? hmem) hg hname]
      exact ⟨x.2, rfl⟩
  refine ⟨i, ?_⟩
  simp [field?, Ty.structName?, hu.struct?_name hd, hi]

theorem holds_of_contains (h : Contains s.structs outer held) : s.Holds outer held := by
  obtain ⟨d, hd, rfl, hinner⟩ := h
  exact ⟨d, hu.struct?_name hd, Typing.mem_fieldStructs.mpr hinner⟩

end Unambiguous

theorem Unambiguous.holdsItself_eq_false (hu : s.Unambiguous) (hd : d ∈ s.structs)
    (h : ¬Relation.TransGen (Contains s.structs) d.name d.name) :
    Typing.holdsItself s d = false := by
  rw [Bool.eq_false_iff]
  intro hholds
  have hcycle := (holds_iff hu.structs (hu.struct?_name hd) (Nat.lt_succ_self _)).mp hholds
  exact h (hcycle.lift id fun _ _ => contains_of_holds)

end Symbols

/-! ## Operators -/

theorem UnaryOp.takes_iff : op.Takes ty ↔ Typing.meets ty (Typing.unaryDemand op) = true := by
  cases op <;> simp [Takes, Typing.meets, Typing.unaryDemand]

theorem BinaryOp.takes_iff : op.Takes ty ↔ Typing.meets ty (Typing.binaryDemand op) = true := by
  cases op <;>
    simp [Takes, Typing.meets, Typing.binaryDemand, isEquality, isOrdering, isBitwise]

theorem BinaryOp.result_eq (op : BinaryOp) (ty : Ty) :
    op.result ty = if op.isComparison then .bool else ty := by
  cases op <;> rfl

theorem Ty.casts_iff {target : Ty} :
    source.Casts target ↔ source = target ∨ source.castsTo target = true := by
  simp only [castsTo, Bool.or_eq_true, Bool.and_eq_true, beq_iff_eq]
  constructor
  · intro h
    cases h with
    | same => exact .inl rfl
    | numbers hs ht => exact .inr (.inl (.inl ⟨hs, ht⟩))
    | ofBool ht => exact .inr (.inl (.inr ⟨rfl, ht⟩))
    | toBool hs => exact .inr (.inr ⟨hs, rfl⟩)
  · rintro (rfl | (⟨hs, ht⟩ | ⟨rfl, ht⟩) | ⟨hs, rfl⟩)
    · exact .same
    · exact .numbers hs ht
    · exact .ofBool ht
    · exact .toBool hs

theorem Ty.Declared.named {ty : Ty} (h : ty.Declared s) : ty.Named s.structs := by
  intro name heq
  obtain ⟨d, hd⟩ := h.struct name heq
  exact ⟨d, Symbols.struct?_eq_some hd⟩

theorem Ty.Named.declared {s : Symbols} {ty : Ty} (hu : s.Unambiguous) (hp : ty.Proper)
    (h : ty.Named s.structs) : ty.Declared s := by
  refine ⟨hp, fun name heq => ?_⟩
  obtain ⟨d, hd, rfl⟩ := h name heq
  exact ⟨d, hu.struct?_name hd⟩

/-! ## What checking accepts is derivable -/

mutual

theorem Typed.hasType (h : Typed f scope e ty) :
    ∃ nodes, HasType f.symbols scope.context e ty nodes := by
  cases h with
  | @integer _ _ long => cases long <;> exact ⟨_, by constructor⟩
  | @float _ _ single => cases single <;> exact ⟨_, by constructor⟩
  | bool => exact ⟨_, .bool⟩
  | text => exact ⟨_, .text⟩
  | var _ hb => exact ⟨_, .var (binds_context.mpr ⟨_, hb, rfl⟩)⟩
  | unary _ he hop =>
    obtain ⟨nodes, he⟩ := he.hasType
    exact ⟨_, .unary he (UnaryOp.takes_iff.mpr hop)⟩
  | binary _ hl hr hop =>
    obtain ⟨nodes, hl⟩ := hl.hasType
    obtain ⟨nodes', hr⟩ := hr.hasType
    rw [← BinaryOp.result_eq]
    exact ⟨_, .binary hl hr (BinaryOp.takes_iff.mpr hop)⟩
  | cast _ he hc =>
    obtain ⟨nodes, he⟩ := he.hasType
    exact ⟨_, .cast he (Ty.casts_iff.mpr hc)⟩
  | call _ hargs hr =>
    obtain ⟨nodes, hargs⟩ := hargs.haveTypes
    exact ⟨_, .call hargs (Symbols.resolve_eq_ok_iff.mp hr)⟩
  | construct _ hd hargs =>
    obtain ⟨nodes, hargs⟩ := hargs.haveTypes
    obtain ⟨hmem, rfl⟩ := Symbols.struct?_eq_some hd
    exact ⟨_, .construct hmem hargs⟩
  | access _ he hf =>
    obtain ⟨nodes, he⟩ := he.hasType
    obtain ⟨d, g, hd, hfield, hg, rfl⟩ := Symbols.field?_eq_some hf
    obtain ⟨hmem, rfl⟩ := Symbols.struct?_eq_some hd
    simp only [StructDef.field?, Option.map_eq_some_iff, Prod.mk.injEq] at hfield
    obtain ⟨x, hx, -, rfl⟩ := hfield
    cases (by simpa using List.find?_some hx : x.1.name = _)
    exact ⟨_, .access hmem (List.mem_of_getElem? hg) he⟩

theorem TypedAll.haveTypes (h : TypedAll f scope es tys) :
    ∃ nodes, HaveTypes f.symbols scope.context es tys nodes := by
  cases h with
  | nil => exact ⟨_, .nil⟩
  | cons he hes =>
    obtain ⟨nodes, he⟩ := he.hasType
    obtain ⟨nodes', hes⟩ := hes.haveTypes
    exact ⟨_, .cons he hes⟩

end

mutual

/-- A statement that keeps the rules is derivable. -/
theorem StmtTyped.derivable {scope : Scope Binding} (h : StmtTyped f ret scope stmt scope') :
    ∃ nodes, StmtDerivable f.symbols ret scope.context stmt scope'.context nodes := by
  cases h with
  | @declare _ d ty _ hty hvoid hinit hann =>
    rw [Scope.context_define]
    obtain ⟨n, name, annotation, m, init⟩ := d
    cases init with
    | none =>
      obtain rfl := hann.resolve_right fun h => h.2 rfl
      exact ⟨_, .annotate hty.named hvoid⟩
    | some e =>
      obtain ⟨nodes, he⟩ := (hinit e rfl).hasType
      rcases hann with rfl | ⟨rfl, -⟩
      · exact ⟨_, .check hty.named he hvoid⟩
      · exact ⟨_, .infer he hvoid⟩
  | assign hb hrec hv =>
    obtain ⟨nodes, hv⟩ := hv.hasType
    exact ⟨_, .assign (binds_context.mpr ⟨_, hb, rfl⟩) hrec hv⟩
  | branch hc ht =>
    obtain ⟨nodes, hc⟩ := hc.hasType
    obtain ⟨nodes', ht⟩ := ht.derivable
    exact ⟨_, .branch hc ht⟩
  | branchElse hc ht he =>
    obtain ⟨nodes, hc⟩ := hc.hasType
    obtain ⟨nodes', ht⟩ := ht.derivable
    obtain ⟨nodes'', he⟩ := he.derivable
    exact ⟨_, .branchElse hc ht he⟩
  | retNone hret => exact ⟨_, .retNone hret⟩
  | ret he =>
    obtain ⟨nodes, he⟩ := he.hasType
    exact ⟨_, .ret he⟩
  | expr he =>
    obtain ⟨nodes, he⟩ := he.hasType
    exact ⟨_, .expr he⟩

theorem StmtsTyped.derivable {scope : Scope Binding} (h : StmtsTyped f ret scope stmts) :
    ∃ nodes, StmtsDerivable f.symbols ret scope.context stmts nodes := by
  cases h with
  | nil => exact ⟨_, .nil⟩
  | cons hs hrest =>
    obtain ⟨nodes, hs⟩ := hs.derivable
    obtain ⟨nodes', hrest⟩ := hrest.derivable
    exact ⟨_, .cons hs hrest⟩

theorem BlockTyped.derivable {scope : Scope Binding} (h : BlockTyped f ret scope b) :
    ∃ nodes, BlockDerivable f.symbols ret scope.context b nodes := by
  obtain ⟨_, h⟩ := h
  obtain ⟨nodes, h⟩ := h.derivable
  exact ⟨_, .mk h⟩

end

namespace Typing

/-! ## What is derivable is accepted -/

variable {s : Symbols}

/-- What was found says what a derivation says: nothing stops compilation, and exactly the nodes of the
derivation are recorded, with declared types. -/
structure Confirms (s : Symbols) (a : Analysis) (nodes : List (Nat × Ty)) : Prop where
  clean : a.Clean
  types : a.types = nodes
  declared : ∀ x ∈ nodes, x.2.Declared s

namespace Confirms

theorem empty : Confirms s ∅ [] := ⟨rfl, rfl, by simp⟩

theorem append (ha : Confirms s a nodes) (hb : Confirms s b nodes') :
    Confirms s (a ++ b) (nodes ++ nodes') := by
  constructor
  · exact Analysis.clean_append.mpr ⟨ha.clean, hb.clean⟩
  · rw [Analysis.types_append, ha.types, hb.types]
  · exact List.forall_mem_append.mpr ⟨ha.declared, hb.declared⟩

theorem reports (ha : Confirms s a nodes) (h : Harmless issues) :
    Confirms s (a ++ .reports (reportsAt span issues)) nodes := by
  have hr : Confirms s (.reports (reportsAt span issues)) [] :=
    ⟨Analysis.clean_reports.mpr (quiet_reportsAt.mpr h), rfl, by simp⟩
  simpa using ha.append hr

theorem typed (h : ty.Declared s) (id : Nat) : Confirms s (.typed id ty) [(id, ty)] :=
  ⟨rfl, rfl, by simpa using h⟩

theorem declares (block : Nat) (decls : List Nat) : Confirms s (.declares block decls) [] :=
  ⟨rfl, rfl, by simp⟩

theorem conclude (ha : Confirms s a nodes) (n : Node) (hv : v.ty = ty)
    (hi : Harmless v.issues) (hd : ty.Declared s) :
    Confirms s (conclude n a v).2 (nodes ++ [(n.id, ty)]) := by
  subst hv
  exact (ha.reports hi).append (typed hd n.id)

end Confirms

/-- The type and the findings of an expression are what a derivation says. -/
def Agrees (s : Symbols) (found : Ty × Analysis) (ty : Ty) (nodes : List (Nat × Ty)) : Prop :=
  ∃ a, found = (ty, a) ∧ ty.Declared s ∧ Confirms s a nodes

theorem Confirms.agrees (ha : Confirms s a nodes) (n : Node) (hd : ty.Declared s) :
    Agrees s (Typing.conclude n a (.accept ty)) ty (nodes ++ [(n.id, ty)]) :=
  ⟨_, rfl, hd, ha.conclude n rfl harmless_nil hd⟩

theorem whenTyped_singleton (hd : ty.Declared s) (v : Verdict) :
    Verdict.whenTyped [ty] v = v :=
  Verdict.whenTyped_eq (by simpa using hd.proper.2)

theorem unaryRule_eq (h : op.Takes ty) : unaryRule op ty = .accept ty :=
  if_pos (UnaryOp.takes_iff.mp h)

theorem binaryRule_eq (h : op.Takes ty) : binaryRule op ty ty = .accept (op.result ty) := by
  rw [binaryRule, if_neg (by simp), if_pos (BinaryOp.takes_iff.mp h), BinaryOp.result_eq]

theorem castRule_harmless (h : source.Casts target) :
    (castRule source target).ty = target ∧ Harmless (castRule source target).issues := by
  unfold castRule
  by_cases heq : source = target
  · rw [if_pos heq]
    exact ⟨rfl, by simp [Issue.level]⟩
  · rw [if_neg heq, if_pos ((Ty.casts_iff.mp h).resolve_left heq)]
    exact ⟨rfl, harmless_nil⟩

theorem callRule_eq (h : s.Calls name args callee) : callRule s name args = .accept callee.ret := by
  rw [callRule, Symbols.resolve_eq_ok_iff.mpr h]

theorem constructRule_eq (hu : s.Unambiguous) (hd : d ∈ s.structs)
    (hf : ∀ ty ∈ d.fields.map TypedName.ty, ty ≠ .error) :
    constructRule s d.name (d.fields.map TypedName.ty) = .accept (.struct d.name) := by
  simp only [constructRule, hu.struct?_name hd, Verdict.whenTyped_eq hf, if_true]

theorem accessRule_eq (hu : s.Unambiguous) (hd : d ∈ s.structs) (hg : g ∈ d.fields) :
    accessRule s (.struct d.name) g.name = .accept g.ty := by
  obtain ⟨i, hi⟩ := hu.field?_name hd hg
  simp only [accessRule, hi]

section

mutual

/-- Checking an expression finds the type that can be derived. -/
theorem infer_complete (hu : s.Unambiguous) (hsym : s.Sound) {scope : Scope Binding}
    (hscope : scope.Sound s) {ty : Ty} (h : HasType s scope.context e ty nodes)
    : Agrees s (infer s scope e) ty nodes := by
  cases h with
  | @i32 n | @i64 n | @f32 n | @f64 n => exact Confirms.empty.agrees n (.of_isNumber rfl)
  | @bool n => exact Confirms.empty.agrees n .bool
  | @text n => exact Confirms.empty.agrees n .string
  | @var n name v h =>
    obtain ⟨b, hb, rfl⟩ := binds_context.mp h
    rw [infer, show varRule scope name = .accept b.ty by rw [varRule, hb]]
    exact Confirms.empty.agrees n (hscope name b hb)
  | @unary n _ _ _ _ he hop =>
    obtain ⟨a, hfound, hd, hc⟩ := infer_complete hu hsym hscope he
    simp only [infer, hfound, whenTyped_singleton hd, unaryRule_eq hop]
    exact hc.agrees n hd
  | @binary n _ _ _ t _ _ hl hr hop =>
    obtain ⟨a, hfound, hd, hc⟩ := infer_complete hu hsym hscope hl
    obtain ⟨a', hfound', -, hc'⟩ := infer_complete hu hsym hscope hr
    have hparts : ∀ t' ∈ [t, t], t' ≠ .error := by simpa using hd.proper.2
    simp only [infer, hfound, hfound', Verdict.whenTyped_eq hparts, binaryRule_eq hop]
    apply (hc.append hc').agrees n
    rw [BinaryOp.result_eq]
    split
    · exact .bool
    · exact hd
  | @cast n _ _ _ _ he hcast =>
    obtain ⟨a, hfound, hd, hc⟩ := infer_complete hu hsym hscope he
    simp only [infer, hfound, whenTyped_singleton hd]
    obtain ⟨htarget, hharmless⟩ := castRule_harmless hcast
    have hdecl : ty.Declared s := (Ty.casts_iff.mp hcast).elim (fun heq => heq ▸ hd) .of_castsTo
    exact ⟨_, Prod.ext htarget rfl, hdecl, hc.conclude n htarget hharmless hdecl⟩
  | @call n _ _ tys _ _ hargs hcall =>
    obtain ⟨a, hfound, hd, hc⟩ := inferAll_complete hu hsym hscope hargs
    have hparts : ∀ t ∈ tys, t ≠ .error := fun t ht => (hd t ht).proper.2
    simp only [infer, hfound, callRule_eq hcall, Verdict.whenTyped_eq hparts]
    exact hc.agrees n (hsym.calleeRet (Symbols.resolve_eq_ok_iff.mpr hcall))
  | @construct n _ _ _ hmem hargs =>
    obtain ⟨a, hfound, hd, hc⟩ := inferAll_complete hu hsym hscope hargs
    simp only [infer, hfound, constructRule_eq hu hmem fun t ht => (hd t ht).proper.2]
    apply hc.agrees n
    refine ⟨by simp [Ty.Proper], ?_⟩
    rintro _ ⟨⟩
    exact ⟨_, hu.struct?_name hmem⟩
  | @access n _ _ _ _ hmem hg he =>
    obtain ⟨a, hfound, hd, hc⟩ := infer_complete hu hsym hscope he
    simp only [infer, hfound, whenTyped_singleton hd, accessRule_eq hu hmem hg]
    exact hc.agrees n (hsym.fields _ hmem _ hg).1

theorem inferAll_complete (hu : s.Unambiguous) (hsym : s.Sound) {scope : Scope Binding}
    (hscope : scope.Sound s) (h : HaveTypes s scope.context es tys nodes) :
    ∃ a, inferAll s scope es = (tys, a) ∧ (∀ ty ∈ tys, ty.Declared s) ∧ Confirms s a nodes := by
  cases h with
  | nil => exact ⟨∅, rfl, by simp, Confirms.empty⟩
  | cons he hes =>
    obtain ⟨a, hfound, hd, hc⟩ := infer_complete hu hsym hscope he
    obtain ⟨b, hfounds, hds, hcs⟩ := inferAll_complete hu hsym hscope hes
    simp only [inferAll, hfound, hfounds]
    exact ⟨_, rfl, List.forall_mem_cons.mpr ⟨hd, hds⟩, hc.append hcs⟩

end

end

theorem declVerdict_eq (hd : ty.Declared s) (hvoid : ty ≠ .void)
    (hann : ∀ t ∈ d.annotation, t = ty) (hinit : ∀ t ∈ init, t = ty)
    (hsome : d.annotation = none → init ≠ none) : declVerdict s d init = .accept ty := by
  unfold declVerdict
  cases ha : d.annotation with
  | none =>
    cases init with
    | none => exact absurd rfl (hsome ha)
    | some t =>
      cases hinit t rfl
      simp [Verdict.accept, hvoid, hd.proper.1]
  | some t =>
    cases hann t ha
    simp only [declaredTypeIssues_eq_nil hd]
    cases init with
    | none => simp [Verdict.accept, hvoid, hd.proper.1]
    | some t =>
      cases hinit t rfl
      simp [Verdict.accept, hvoid, hd.proper.1]

/-- Checking a statement leaves the scope and finds the types that its derivation says. -/
structure StmtAgrees (s : Symbols) (found : Scope Binding × Analysis) (Γ : List Variable)
    (nodes : List (Nat × Ty)) : Prop where
  context : found.1.context = Γ
  sound : found.1.Sound s
  confirms : Confirms s found.2 nodes

theorem stmtAgrees_declare (hscope : scope.Sound s) (hd : ty.Declared s)
    (hvoid : ty ≠ .void) (hfound : inferOption s scope d.init = (init, a))
    (hann : ∀ t ∈ d.annotation, t = ty) (hinit : ∀ t ∈ init, t = ty)
    (hsome : d.annotation = none → init ≠ none) (hc : Confirms s a nodes) :
    StmtAgrees s (checkStmt s ret scope (.declare d)) (scope.context ++ [⟨d.name, ty, false⟩])
      (nodes ++ [(d.node.id, ty)]) := by
  simp only [checkStmt, hfound, declVerdict_eq hd hvoid hann hinit hsome]
  exact ⟨Scope.context_define .., hscope.define hd, hc.conclude d.node rfl harmless_nil hd⟩

section

mutual

/-- Checking a statement that can be derived reports nothing that stops compilation. -/
theorem checkStmt_complete (hu : s.Unambiguous) (hsym : s.Sound) (ret : Ty) {scope : Scope Binding}
    (hscope : scope.Sound s) (hg : stmt.Grammatical)
    (h : StmtDerivable s ret scope.context stmt Γ nodes) :
    StmtAgrees s (checkStmt s ret scope stmt) Γ nodes := by
  cases h with
  | @infer _ n name m e ty _ he hvoid =>
    obtain ⟨a, hfound, hd, hc⟩ := infer_complete hu hsym hscope he
    have hinit : inferOption s scope (some e) = (some ty, a) := by rw [inferOption, hfound]
    exact stmtAgrees_declare (d := ⟨n, name, none, m, some e⟩) hscope hd hvoid hinit (by simp)
      (by simp) (by simp) hc
  | @annotate _ n name m ty hty hvoid =>
    rw [Stmt.Grammatical] at hg
    have hd := hty.declared hu (hg.2 _ rfl)
    exact stmtAgrees_declare (d := ⟨n, name, some ty, m, none⟩) hscope hd hvoid rfl (by simp)
      (by simp) (by simp) Confirms.empty
  | @check _ n name m e ty _ hty he hvoid =>
    obtain ⟨a, hfound, hd, hc⟩ := infer_complete hu hsym hscope he
    have hinit : inferOption s scope (some e) = (some ty, a) := by rw [inferOption, hfound]
    exact stmtAgrees_declare (d := ⟨n, name, some ty, m, some e⟩) hscope hd hvoid hinit (by simp)
      (by simp) (by simp) hc
  | assign hv hrec he =>
    obtain ⟨a, hfound, hd, hc⟩ := infer_complete hu hsym hscope he
    obtain ⟨b, hb, rfl⟩ := binds_context.mp hv
    have hreceiver : b.isReceiver = false := hrec
    simp only [checkStmt, hfound]
    refine ⟨rfl, hscope, hc.reports ?_⟩
    by_cases hm : b.isMutable = true
    · simp [assignIssues, hb, hreceiver, hm]
    · simp [assignIssues, hb, hreceiver, hm, Issue.level]
  | branch hc hb =>
    rw [Stmt.Grammatical] at hg
    obtain ⟨a, hfound, -, hconf⟩ := infer_complete hu hsym hscope hc
    have hbody := checkBlock_complete hu hsym ret hscope.push hg hb
    simp only [checkStmt, hfound]
    exact ⟨rfl, hscope, (hconf.reports (by simp [conditionIssues])).append hbody⟩
  | branchElse hc hb hb' =>
    rw [Stmt.Grammatical] at hg
    obtain ⟨a, hfound, -, hconf⟩ := infer_complete hu hsym hscope hc
    have hbody := checkBlock_complete hu hsym ret hscope.push hg.1 hb
    have hbody' := checkBlock_complete hu hsym ret hscope.push hg.2 hb'
    simp only [checkStmt, hfound]
    exact ⟨rfl, hscope, ((hconf.reports (by simp [conditionIssues])).append hbody).append hbody'⟩
  | retNone h =>
    simp only [checkStmt, inferOption]
    exact ⟨rfl, hscope, Confirms.empty.reports (by simp [returnIssues, h])⟩
  | ret he =>
    obtain ⟨a, hfound, -, hc⟩ := infer_complete hu hsym hscope he
    simp only [checkStmt, inferOption, hfound]
    exact ⟨rfl, hscope, hc.reports (by simp [returnIssues])⟩
  | expr he =>
    obtain ⟨a, hfound, -, hc⟩ := infer_complete hu hsym hscope he
    simp only [checkStmt, hfound]
    exact ⟨rfl, hscope, hc⟩

theorem checkStmts_complete (hu : s.Unambiguous) (hsym : s.Sound) (ret : Ty) {scope : Scope Binding}
    (hscope : scope.Sound s) (hg : GrammaticalStmts stmts)
    (h : StmtsDerivable s ret scope.context stmts nodes) :
    Confirms s (checkStmts s ret scope stmts) nodes := by
  cases h with
  | nil => exact Confirms.empty
  | cons hs hrest =>
    rw [GrammaticalStmts] at hg
    obtain ⟨hcontext, hsound, hc⟩ := checkStmt_complete hu hsym ret hscope hg.1 hs
    rw [← hcontext] at hrest
    rw [checkStmts]
    exact hc.append (checkStmts_complete hu hsym ret hsound hg.2 hrest)

theorem checkBlock_complete (hu : s.Unambiguous) (hsym : s.Sound) (ret : Ty) {scope : Scope Binding}
    (hscope : scope.Sound s) (hg : b.Grammatical) (h : BlockDerivable s ret scope.context b nodes) :
    Confirms s (checkBlock s ret scope b) nodes := by
  obtain ⟨h⟩ := h
  rw [Block.Grammatical] at hg
  rw [checkBlock]
  exact (Confirms.declares _ _).append (checkStmts_complete hu hsym ret hscope hg h)

end

end

theorem context_startScope (g : FnHeader) : g.startScope.context = g.context := by
  have hfold : ∀ (params : List TypedName) (scope : Scope Binding),
      (params.foldl (fun scope q => scope.define q.name ⟨q.ty, false, false⟩) scope).context =
        scope.context ++ params.map fun q => ⟨q.name, q.ty, false⟩ := by
    intro params
    induction params with
    | nil => simp
    | cons q rest ih =>
      intro scope
      rw [List.foldl_cons, ih, Scope.context_define, List.append_assoc]
      rfl
  rw [FnHeader.startScope, hfold, FnHeader.context]
  cases g.receiver <;> rfl

end Typing

/-! ## Programs -/

namespace Program

variable {p : Program}

namespace WellFormed

variable (h : p.WellFormed)
include h

theorem unambiguous : p.symbols.Unambiguous := ⟨h.structs_nodup, h.fields_nodup⟩

theorem declared_types (hg : p.Grammatical) (hm : g ∈ p.functions) :
    ∀ ty ∈ g.types, ty.Declared p.symbols := by
  have hgram := hg.function hm
  have hproper : ∀ ty ∈ g.types, ty.Proper := by
    refine FnHeader.forall_types.mpr ⟨fun ty hty => ?_, fun q hq => (hgram.params q hq).2, hgram.ret⟩
    obtain ⟨name, rfl⟩ := hgram.receiver ty hty
    simp [Ty.Proper]
  exact fun ty hty => (h.functions_named g hm ty hty).declared h.unambiguous (hproper ty hty)

theorem declared_fields (hg : p.Grammatical) :
    ∀ d ∈ p.structs, ∀ q ∈ d.fields, q.ty.Declared p.symbols ∧ q.ty ≠ .void :=
  fun d hd q hq => ⟨(h.fields_named d hd q hq).declared h.unambiguous (hg.struct hd q hq).2,
    h.fields_ne_void d hd q hq⟩

theorem declared_foreigns (hg : p.Grammatical) : ∀ d ∈ p.foreigns,
    (∀ q ∈ d.params, q.ty.Declared p.symbols) ∧ d.ret.Declared p.symbols := by
  intro d hd
  have hnamed := h.foreigns_named d hd
  rw [List.forall_mem_append, List.forall_mem_map, List.forall_mem_singleton] at hnamed
  exact ⟨fun q hq => (hnamed.1 q hq).declared h.unambiguous ((hg.foreign hd).params q hq).2,
    hnamed.2.declared h.unambiguous (hg.foreign hd).ret⟩

theorem confirms (hg : p.Grammatical) (hm : g ∈ p.functions)
    (hb : BlockDerivable p.symbols g.ret g.context g.body nodes) :
    Typing.Confirms p.symbols (Typing.checkBlock p.symbols g.ret g.startScope g.body) nodes := by
  have hsym := hg.sound_symbols (h.declared_fields hg) (h.declared_foreigns hg)
    fun g hm => h.declared_types hg hm
  rw [← Typing.context_startScope] at hb
  exact Typing.checkBlock_complete h.unambiguous hsym g.ret
    (Typing.sound_startScope (h.declared_types hg hm)) (hg.function hm).body hb

theorem hasErrors_eq_false (hg : p.Grammatical) : p.analyze.hasErrors = false := by
  refine hg.clean_iff.mpr ⟨⟨h.structs_nodup, fun d hd => ⟨h.fields_nodup d hd, h.declared_fields hg d hd,
    h.unambiguous.holdsItself_eq_false hd (h.acyclic d.name)⟩⟩, h.declared_foreigns hg,
    ⟨h.linkage_nodup, fun g hm => ⟨⟨h.declared_types hg hm, h.params_nodup g hm⟩, ?_⟩⟩,
    List.length_eq_one_iff.mp (List.countP_eq_length_filter.symm.trans h.entry)⟩
  obtain ⟨nodes, hb⟩ := h.bodies g hm
  exact (h.confirms hg hm hb).clean

/-- Every derivation has each expression and declaration of the body among its nodes, and the table
records them. -/
theorem recorded (hg : p.Grammatical) (hm : g ∈ p.functions)
    (hb : BlockDerivable p.symbols g.ret g.context g.body nodes) {id : Nat}
    (hid : id ∈ idsOfNodes g.body.exprs g.body.lets []) :
    ∃ ty, (id, ty) ∈ nodes ∧ p.analyze.type? id = some ty ∧ ty.Proper := by
  have hconf := h.confirms hg hm hb
  have hkeys : id ∈ nodes.map Prod.fst :=
    hconf.types ▸ (Typing.finds_checkBlock g.ret g.startScope g.body).types.mem_iff.mpr hid
  obtain ⟨⟨_, ty⟩, hx, rfl⟩ := List.mem_map.mp hkeys
  refine ⟨ty, hx, ?_, (hconf.declared _ hx).proper⟩
  have hfind := (hg.include_body hm (h.declared_types hg hm)).types _ ty (hconf.types ▸ hx)
  rwa [findings, Analysis.getElem?_typeTable] at hfind

end WellFormed

theorem Grammatical.wellFormed (hg : p.Grammatical) (h : p.analyze.hasErrors = false) :
    p.WellFormed := by
  have hw := hg.wellTyped h
  obtain ⟨⟨hnames, hstructs⟩, hforeigns, ⟨hlinkage, hfunctions⟩, -⟩ := hg.clean_iff.mp h
  have hu : p.symbols.Unambiguous := ⟨hnames, fun d hd => (hstructs d hd).1⟩
  constructor
  · exact hnames
  · exact hu.fields
  · exact fun d hd g hm => ((hstructs d hd).2.1 g hm).2
  · exact fun d hd g hm => ((hstructs d hd).2.1 g hm).1.named
  · intro d hd
    rw [List.forall_mem_append, List.forall_mem_map, List.forall_mem_singleton]
    exact ⟨fun q hq => ((hforeigns d hd).1 q hq).named, (hforeigns d hd).2.named⟩
  · exact fun g hm ty hty => ((hfunctions g hm).1.1 ty hty).named
  · exact fun name hcycle =>
      hw.grounded.acyclic name (hcycle.lift id fun _ _ => hu.holds_of_contains)
  · obtain ⟨g, hentry⟩ := hw.entry
    rw [List.countP_eq_length_filter, hentry]
    rfl
  · exact hlinkage
  · exact fun g hm => (hfunctions g hm).1.2
  · intro g hm
    rw [← Typing.context_startScope]
    exact (hw.bodies g hm).derivable

/-- Checking decides the type system: a program that was read has no error exactly if the language
admits it, and then the type that is recorded for an expression is the one that every derivation of
its function's body gives to it. -/
theorem analyze_decides (hp : p.Sourced) :
    (p.analyze.hasErrors = false ↔ p.WellFormed) ∧
      (p.WellFormed → ∀ g ∈ p.functions, ∀ nodes,
        BlockDerivable p.symbols g.ret g.context g.body nodes → ∀ e ∈ g.body.exprs,
          ∃ ty, (e.id, ty) ∈ nodes ∧ p.analyze.type? e.id = some ty) := by
  have hg := hp.grammatical
  refine ⟨⟨hg.wellFormed, fun h => h.hasErrors_eq_false hg⟩, fun h g hm nodes hb e he => ?_⟩
  obtain ⟨ty, hx, hty, -⟩ := h.recorded hg hm hb (mem_idsOfNodes.mpr (.inl ⟨e, he, rfl⟩))
  exact ⟨ty, hx, hty⟩

theorem analyze_decides_sample :
    (∃ p next, Program.parse sampleSource 0 0 = .ok (p, next) ∧ p.WellFormed ∧
      ∃ g ∈ p.functions, ∃ nodes, BlockDerivable p.symbols g.ret g.context g.body nodes ∧
        ∃ e ∈ g.body.exprs, ∃ ty, (e.id, ty) ∈ nodes ∧ p.analyze.type? e.id = some ty) ∧
    ∃ p next, Program.parse brokenSource 0 0 = .ok (p, next) ∧ ¬p.WellFormed := by
  constructor
  · obtain ⟨p, next, hparse, h, htest⟩ := exists_of_accepts
      (show accepts sampleSource (fun p => p.functions.any fun g => !g.body.exprs.isEmpty) = true by
        decide +kernel)
    obtain ⟨hiff, hrecorded⟩ := analyze_decides (.parsed hparse)
    have hw := hiff.mp h
    obtain ⟨g, hm, hne⟩ := List.any_eq_true.mp htest
    obtain ⟨e, he⟩ : ∃ e, e ∈ g.body.exprs := List.exists_mem_of_ne_nil _ (by simpa using hne)
    obtain ⟨nodes, hb⟩ := hw.bodies g hm
    exact ⟨p, next, hparse, hw, g, hm, nodes, hb, e, he, hrecorded hw g hm nodes hb e he⟩
  · obtain ⟨p, next, hparse, htest⟩ := exists_of_parses
      (show parses brokenSource (fun p => p.analyze.hasErrors) = true by decide +kernel)
    refine ⟨p, next, hparse, fun hw => ?_⟩
    rw [(analyze_decides (.parsed hparse)).1.mpr hw] at htest
    cases htest

/-- After a clean analysis every expression and every variable declaration has a type in the table,
and it is a type that the language can spell. -/
theorem types_resolved (hp : p.Sourced) (h : p.analyze.hasErrors = false) :
    ∀ g ∈ p.functions,
      (∀ e ∈ g.body.exprs, ∃ ty, p.analyze.type? e.id = some ty ∧ ty ≠ .unknown ∧ ty ≠ .error) ∧
      ∀ d ∈ g.body.lets, ∃ ty, p.analyze.type? d.node.id = some ty ∧ ty ≠ .unknown ∧ ty ≠ .error := by
  intro g hm
  have hg := hp.grammatical
  have hw := hg.wellFormed h
  obtain ⟨nodes, hb⟩ := hw.bodies g hm
  constructor
  · intro e he
    obtain ⟨ty, -, hty⟩ := hw.recorded hg hm hb (mem_idsOfNodes.mpr (.inl ⟨e, he, rfl⟩))
    exact ⟨ty, hty⟩
  · intro d hd
    obtain ⟨ty, -, hty⟩ := hw.recorded hg hm hb (mem_idsOfNodes.mpr (.inr (.inl ⟨d, hd, rfl⟩)))
    exact ⟨ty, hty⟩

theorem types_resolved_sample : ∃ p next, Program.parse sampleSource 0 0 = .ok (p, next) ∧
    p.analyze.hasErrors = false ∧ ∃ g ∈ p.functions, ∃ e ∈ g.body.exprs, ∃ d ∈ g.body.lets,
      (∃ ty, p.analyze.type? e.id = some ty ∧ ty ≠ .unknown ∧ ty ≠ .error) ∧
      ∃ ty, p.analyze.type? d.node.id = some ty ∧ ty ≠ .unknown ∧ ty ≠ .error := by
  obtain ⟨p, next, hparse, h, htest⟩ := exists_of_accepts (show accepts sampleSource
    (fun p => p.functions.any fun g => !g.body.exprs.isEmpty && !g.body.lets.isEmpty) = true by
      decide +kernel)
  obtain ⟨g, hm, hne⟩ := List.any_eq_true.mp htest
  rw [Bool.and_eq_true, Bool.not_eq_true', Bool.not_eq_true'] at hne
  obtain ⟨e, he⟩ : ∃ e, e ∈ g.body.exprs := List.exists_mem_of_ne_nil _ (by simpa using hne.1)
  obtain ⟨d, hd⟩ : ∃ d, d ∈ g.body.lets := List.exists_mem_of_ne_nil _ (by simpa using hne.2)
  obtain ⟨hexprs, hlets⟩ := types_resolved (.parsed hparse) h g hm
  exact ⟨p, next, hparse, h, g, hm, e, he, d, hd, hexprs e he, hlets d hd⟩

end Program

end StructLang
