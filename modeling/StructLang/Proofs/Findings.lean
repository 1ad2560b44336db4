import StructLang.Proofs.Checking
import StructLang.Proofs.Grammar
import StructLang.Proofs.Places

/-!
# What checking finds out about a body

Checking finds a type for each expression and declaration of a body and lists what each block declares,
whether or not it has errors, and what it reports it reports at a place of the body. The words that report
a function as defined twice or a struct as holding itself are used for no statement or expression: other
issues are `isOrdinary`, and checking a body reports ordinary issues only.
-/

namespace StructLang

/-- Any issue but a function that is defined twice or a struct that holds itself. -/
def Issue.isOrdinary : Issue → Bool
  | duplicateFunction _ | recursiveStruct _ => false
  | _ => true

def Diagnostic.Ordinary (d : Diagnostic) : Prop :=
  ∃ i : Issue, i.isOrdinary = true ∧ d.message = i.message

/-- All of the reports are of ordinary issues at the given places. -/
def OrdinaryReports (spans : List Span) (ds : List Diagnostic) : Prop :=
  ∀ d ∈ ds, d.Ordinary ∧ ∀ s ∈ d.span, s ∈ spans

namespace OrdinaryReports

@[simp] theorem nil : OrdinaryReports spans [] := by simp [OrdinaryReports]

theorem mono (h : OrdinaryReports spans ds) (hs : spans ⊆ spans') : OrdinaryReports spans' ds :=
  fun d hd => ⟨(h d hd).1, fun s hspan => hs ((h d hd).2 s hspan)⟩

theorem append (h : OrdinaryReports spans ds) (h' : OrdinaryReports spans es) :
    OrdinaryReports spans (ds ++ es) :=
  List.forall_mem_append.mpr ⟨h, h'⟩

theorem of_ordinary {issues : List Issue} (hspan : span ∈ spans)
    (h : issues.all Issue.isOrdinary = true) :
    OrdinaryReports spans (issues.map fun i => i.report span) := by
  intro d hd
  obtain ⟨i, hi, rfl⟩ := List.mem_map.mp hd
  exact ⟨⟨i, List.all_eq_true.mp h i hi, rfl⟩, fun s hs => Option.some.inj hs ▸ hspan⟩

theorem flatMap {items : List ι}
    (h : ∀ i ∈ items, OrdinaryReports spans (f i)) : OrdinaryReports spans (items.flatMap f) := by
  intro d hd
  obtain ⟨i, hi, hd⟩ := List.mem_flatMap.mp hd
  exact h i hi d hd

end OrdinaryReports

namespace Typing

def Verdict.Ordinary (v : Verdict) : Prop := v.issues.all Issue.isOrdinary = true

theorem Verdict.Ordinary.whenTyped (h : v.Ordinary) (parts : List Ty) :
    (whenTyped parts v).Ordinary := by
  unfold Verdict.whenTyped
  split
  · rfl
  · exact h

theorem ordinary_varRule (name : String) : (varRule scope name).Ordinary := by
  unfold varRule
  split <;> rfl

theorem ordinary_unaryRule (op : UnaryOp) (ty : Ty) : (unaryRule op ty).Ordinary := by
  unfold unaryRule
  split <;> rfl

theorem ordinary_binaryRule (op : BinaryOp) (l r : Ty) : (binaryRule op l r).Ordinary := by
  unfold binaryRule
  repeat' split
  all_goals rfl

theorem ordinary_castRule (source target : Ty) : (castRule source target).Ordinary := by
  unfold castRule
  repeat' split
  all_goals rfl

theorem ordinary_callRule (name : String) (args : List Ty) :
    (callRule symbols name args).Ordinary := by
  unfold callRule
  split <;> rfl

theorem ordinary_constructRule (name : String) (args : List Ty) :
    (constructRule symbols name args).Ordinary := by
  unfold constructRule
  split
  · rfl
  · apply Verdict.Ordinary.whenTyped
    split <;> rfl

theorem ordinary_accessRule (ty : Ty) (member : String) :
    (accessRule symbols ty member).Ordinary := by
  unfold accessRule
  repeat' split
  all_goals rfl

theorem ordinary_declaredTypeIssues (ty : Ty) :
    (declaredTypeIssues symbols ty).all Issue.isOrdinary = true := by
  unfold declaredTypeIssues
  repeat' split
  all_goals rfl

theorem ordinary_declVerdict (d : VarDecl) (init : Option Ty) :
    (declVerdict symbols d init).Ordinary := by
  unfold declVerdict
  extract_lets stated
  have hstated : stated.Ordinary := by
    unfold stated
    split
    · split
      · next hissues =>
        rw [Verdict.Ordinary, ← hissues]
        exact ordinary_declaredTypeIssues _
      · split <;> rfl
      · rfl
    · rfl
    · rfl
  split
  · simpa [Verdict.Ordinary, Issue.isOrdinary] using hstated
  · exact hstated

theorem ordinary_assignIssues (name : String) (value : Ty) :
    (assignIssues scope name value).all Issue.isOrdinary = true := by
  unfold assignIssues
  repeat' split
  all_goals rfl

theorem ordinary_returnIssues (expected found : Ty) :
    (returnIssues expected found).all Issue.isOrdinary = true := by
  unfold returnIssues
  split <;> rfl

theorem ordinary_conditionIssues (found : Ty) :
    (conditionIssues found).all Issue.isOrdinary = true := by
  unfold conditionIssues
  split <;> rfl

/-! ## Findings -/

/-- The analysis has a type for each of the expressions and declarations and lists what each of the blocks
declares, and has nothing else. -/
structure Keyed (a : Analysis) (es : List Expr) (ds : List VarDecl) (bs : List Block) : Prop where
  types : (a.types.map Prod.fst).Perm (idsOfNodes es ds [])
  declared : a.declared = bs.map fun b => (b.id, declarations b.stmts)

/-- It does, and all of its reports are of ordinary issues at the given places. -/
structure Finds (a : Analysis) (es : List Expr) (ds : List VarDecl) (bs : List Block)
    (spans : List Span) : Prop extends Keyed a es ds bs where
  ordinary : OrdinaryReports spans a.diagnostics

theorem Keyed.append (ha : Keyed a es ds bs) (hb : Keyed b es' ds' bs') :
    Keyed (a ++ b) (es ++ es') (ds ++ ds') (bs ++ bs') := by
  constructor
  · rw [Analysis.types_append, List.map_append]
    exact (ha.types.append hb.types).trans (idsOfNodes_append ..)
  · rw [Analysis.declared_append, List.map_append, ha.declared, hb.declared]

theorem Keyed.reports (ha : Keyed a es ds bs) (reports : List Diagnostic) :
    Keyed (a ++ .reports reports) es ds bs := by
  have h : Keyed (.reports reports) [] [] [] := ⟨.refl _, rfl⟩
  simpa using ha.append h

theorem Keyed.reports_append (reports : List Diagnostic) (ha : Keyed a es ds bs) :
    Keyed (.reports reports ++ a) es ds bs := ⟨ha.types, ha.declared⟩

namespace Finds

theorem empty : Finds ∅ [] [] [] [] := ⟨⟨.refl _, rfl⟩, .nil⟩

theorem mono (h : Finds a es ds bs spans) (hs : spans ⊆ spans') : Finds a es ds bs spans' :=
  ⟨h.toKeyed, h.ordinary.mono hs⟩

theorem append (ha : Finds a es ds bs spans) (hb : Finds b es' ds' bs' spans') :
    Finds (a ++ b) (es ++ es') (ds ++ ds') (bs ++ bs') (spans ++ spans') :=
  ⟨ha.toKeyed.append hb.toKeyed, (ha.ordinary.mono (List.subset_append_left ..)).append
    (hb.ordinary.mono (List.subset_append_right ..))⟩

theorem reports (ha : Finds a es ds bs spans) (hspan : span ∈ spans)
    (h : issues.all Issue.isOrdinary = true) :
    Finds (a ++ .reports (reportsAt span issues)) es ds bs spans :=
  ⟨ha.toKeyed.reports _, ha.ordinary.append (.of_ordinary hspan h)⟩

theorem conclude (ha : Finds a es [] [] spans) (n : Node) (hv : v.Ordinary)
    (hid : idsOfNodes es [] [] ++ [n.id] = idsOfNodes es' ds []) :
    Finds (conclude n a v).2 es' ds [] (n.span :: spans) := by
  refine ⟨⟨?_, ?_⟩, ?_⟩
  · rw [← hid]
    simpa [Typing.conclude, Analysis.reports, Analysis.typed] using ha.types.append_right [n.id]
  · simp [Typing.conclude, Analysis.reports, Analysis.typed, ha.declared]
  · refine ((ha.ordinary.mono (List.subset_cons_self n.span spans)).append ?_).append .nil
    exact .of_ordinary List.mem_cons_self hv

theorem concludeExpr (ha : Finds a es [] [] spans) (e : Expr) (hv : v.Ordinary) :
    Finds (Typing.conclude e.node a v).2 (es ++ [e]) [] [] (e.span :: spans) :=
  ha.conclude e.node hv (by simp [idsOfNodes, Expr.id])

theorem single (h : Finds a es ds bs t.spans) :
    Finds a es ds bs (SpanTree.spansOf [t]) := h.mono (List.subset_append_left ..)

end Finds

mutual

theorem finds_infer (e : Expr) : Finds (infer symbols scope e).2 e.parts [] [] e.places.spans := by
  cases e with
  | integer n value long => exact Finds.empty.concludeExpr (.integer n value long) rfl
  | float n value single => exact Finds.empty.concludeExpr (.float n value single) rfl
  | bool n value => exact Finds.empty.concludeExpr (.bool n value) rfl
  | text n value => exact Finds.empty.concludeExpr (.text n value) rfl
  | var n name => exact Finds.empty.concludeExpr (.var n name) (ordinary_varRule name)
  | unary n op e =>
    exact (finds_infer e).single.concludeExpr (.unary n op e) ((ordinary_unaryRule op _).whenTyped _)
  | binary n op l r =>
    exact ((finds_infer l).append (finds_infer r).single).concludeExpr (.binary n op l r)
      ((ordinary_binaryRule op _ _).whenTyped _)
  | cast n e target =>
    exact (finds_infer e).single.concludeExpr (.cast n e target)
      ((ordinary_castRule _ target).whenTyped _)
  | call n name args =>
    exact (finds_inferAll args).concludeExpr (.call n name args) ((ordinary_callRule name _).whenTyped _)
  | construct n name args =>
    exact (finds_inferAll args).concludeExpr (.construct n name args) (ordinary_constructRule name _)
  | access n e member =>
    exact (finds_infer e).single.concludeExpr (.access n e member)
      ((ordinary_accessRule _ member).whenTyped _)

theorem finds_inferAll (es : List Expr) : Finds (inferAll symbols scope es).2 (partsOf es) [] []
    (SpanTree.spansOf (placesOfAll es)) := by
  cases es with
  | nil => exact .empty
  | cons e es => exact (finds_infer e).append (finds_inferAll es)

end

theorem finds_inferOption (e : Option Expr) : Finds (inferOption symbols scope e).2
    ((e.map Expr.parts).getD []) [] [] (SpanTree.spansOf (placesOfOption e)) := by
  cases e with
  | none => exact .empty
  | some e => exact (finds_infer e).single

mutual

theorem finds_checkStmt (ret : Ty) (scope : Scope Binding) (stmt : Stmt) :
    Finds (checkStmt symbols ret scope stmt).2 stmt.exprs stmt.lets stmt.blocks
      stmt.places.spans := by
  cases stmt with
  | declare d =>
    exact (finds_inferOption d.init).conclude d.node (ordinary_declVerdict d _)
      (by simp [idsOfNodes, Stmt.exprs, Stmt.lets])
  | assign span name value =>
    exact ((finds_infer value).single.mono (List.subset_cons_self span _)).reports
      List.mem_cons_self (ordinary_assignIssues name _)
  | branch span cond t e =>
    have hcond : Finds ((infer symbols scope cond).2 ++ .reports _) cond.parts [] [] _ :=
      (finds_infer cond).reports cond.span_mem_places
        (ordinary_conditionIssues (infer symbols scope cond).1)
    cases e with
    | none =>
      exact (hcond.append (finds_checkBlock ret scope.push t).single).mono
        (List.subset_cons_self span _)
    | some e =>
      refine ((hcond.append (finds_checkBlock ret scope.push t)).append
        (finds_checkBlock ret scope.push e).single).mono ?_
      rw [List.append_assoc]
      exact List.subset_cons_self span _
  | ret span value =>
    exact ((finds_inferOption value).mono (List.subset_cons_self span _)).reports
      List.mem_cons_self (ordinary_returnIssues ret _)
  | expr e => exact (finds_infer e).single.mono (List.subset_cons_self e.span _)

theorem finds_checkStmts (ret : Ty) (scope : Scope Binding) (stmts : List Stmt) :
    Finds (checkStmts symbols ret scope stmts) (exprsOf stmts) (letsOf stmts) (blocksOf stmts)
      (SpanTree.spansOf (placesOfStmts stmts)) := by
  cases stmts with
  | nil => exact .empty
  | cons stmt rest => exact (finds_checkStmt ret scope stmt).append (finds_checkStmts ret _ rest)

theorem finds_checkBlock (ret : Ty) (scope : Scope Binding) (b : Block) :
    Finds (checkBlock symbols ret scope b) b.exprs b.lets b.blocks b.places.spans := by
  cases b with
  | mk n stmts =>
    have hn : Finds (.declares n.id (declarations stmts)) [] [] [.mk n stmts] [n.span] :=
      ⟨⟨.refl _, rfl⟩, .nil⟩
    exact hn.append (finds_checkStmts ret scope stmts)

end

end Typing

end StructLang
