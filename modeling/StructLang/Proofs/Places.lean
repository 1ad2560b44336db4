import StructLang.Tree.Basic

/-!
# Where the parts of a tree stand

Each node of a syntax tree has a span, and so have the fields and parameters of an item: `places` keeps
of a tree only these spans. `SpanTree.Nested` says that the parts of every node stand inside it, apart
from each other and in the order in which the tree has them.
-/

namespace StructLang

/-- A span with what stands inside it. -/
inductive SpanTree where
  | node (span : Span) (parts : List SpanTree)

/-- Spans that fit a text. -/
structure Ruler where
  Fits : Span → Prop
  le : ∀ {s}, Fits s → s.start ≤ s.stop
  merge : ∀ {s s'}, Fits s → Fits s' → Fits (s.merge s')

namespace SpanTree

def span : SpanTree → Span
  | node s _ => s

mutual

def spans : SpanTree → List Span
  | node s parts => s :: spansOf parts

def spansOf : List SpanTree → List Span
  | [] => []
  | t :: ts => t.spans ++ spansOf ts

end

@[simp] theorem spansOf_append (ts us : List SpanTree) :
    spansOf (ts ++ us) = spansOf ts ++ spansOf us := by
  induction ts with
  | nil => rfl
  | cons t ts ih => rw [List.cons_append, spansOf, ih, spansOf, List.append_assoc]

mutual

def Nested (r : Ruler) : SpanTree → Prop
  | node s parts => r.Fits s ∧ InOrder r s.start s.stop parts

/-- The trees stand between two bytes, each behind the one before it. -/
def InOrder (r : Ruler) : Nat → Nat → List SpanTree → Prop
  | lo, hi, [] => lo ≤ hi
  | lo, hi, t :: ts => lo ≤ t.span.start ∧ t.Nested r ∧ InOrder r t.span.stop hi ts

end

variable {t : SpanTree}

theorem Nested.fits (h : t.Nested r) : r.Fits t.span := by
  cases t with
  | node s parts => exact h.1

theorem Nested.le (h : t.Nested r) : t.span.start ≤ t.span.stop := r.le h.fits

namespace InOrder

theorem mono (h : InOrder r lo hi ts) (hlo : lo' ≤ lo) (hhi : hi ≤ hi') : InOrder r lo' hi' ts := by
  induction ts generalizing lo lo' with
  | nil => exact Nat.le_trans hlo (Nat.le_trans h hhi)
  | cons t ts ih => exact ⟨Nat.le_trans hlo h.1, h.2.1, ih h.2.2 (Nat.le_refl _)⟩

theorem append (h : InOrder r lo mid ts) (h' : InOrder r mid hi us) :
    InOrder r lo hi (ts ++ us) := by
  induction ts generalizing lo with
  | nil => exact h'.mono h (Nat.le_refl _)
  | cons t ts ih => exact ⟨h.1, h.2.1, ih h.2.2⟩

theorem le (h : InOrder r lo hi ts) : lo ≤ hi := by
  induction ts generalizing lo with
  | nil => exact h
  | cons t ts ih => exact Nat.le_trans (Nat.le_trans h.1 h.2.1.le) (ih h.2.2)

end InOrder

end SpanTree

open SpanTree in
mutual

def Expr.places : Expr → SpanTree
  | .integer n .. | .float n .. | .bool n .. | .text n .. | .var n .. => node n.span []
  | .unary n _ e | .cast n e _ | .access n e _ => node n.span [e.places]
  | .binary n _ l r => node n.span [l.places, r.places]
  | .call n _ args | .construct n _ args => node n.span (placesOfAll args)

def placesOfAll : List Expr → List SpanTree
  | [] => []
  | e :: es => e.places :: placesOfAll es

end

theorem Expr.span_places (e : Expr) : e.places.span = e.span := by
  cases e <;> rfl

theorem Expr.span_mem_places (e : Expr) : e.span ∈ e.places.spans := by
  cases e <;> exact List.mem_cons_self

def placesOfOption (e : Option Expr) : List SpanTree := placesOfAll e.toList

open SpanTree in
mutual

/-- Where a statement and its parts stand. -/
def Stmt.places : Stmt → SpanTree
  | .declare d => node d.node.span (placesOfOption d.init)
  | .assign span _ e => node span [e.places]
  | .branch span c t none => node span [c.places, t.places]
  | .branch span c t (some e) => node span [c.places, t.places, e.places]
  | .ret span e => node span (placesOfOption e)
  | .expr e => node e.span [e.places]

def placesOfStmts : List Stmt → List SpanTree
  | [] => []
  | s :: rest => s.places :: placesOfStmts rest

def Block.places : Block → SpanTree
  | .mk n stmts => node n.span (placesOfStmts stmts)

end

def placesOfNames (ts : List TypedName) : List SpanTree := ts.map fun t => .node t.span []

@[simp] theorem SpanTree.spansOf_placesOfNames (ts : List TypedName) :
    spansOf (placesOfNames ts) = ts.map TypedName.span := by
  induction ts with
  | nil => rfl
  | cons t ts ih => exact congrArg (t.span :: ·) ih

def Item.places : Item → SpanTree
  | .importing d => .node d.span []
  | .struct d => .node d.span (placesOfNames d.fields)
  | .fn f => .node f.span (placesOfNames f.params ++ [f.body.places])
  | .foreign d => .node d.span (placesOfNames d.params)

end StructLang
