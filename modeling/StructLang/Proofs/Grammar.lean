import StructLang.Tree.ReadProgram

/-!
# What the grammar guarantees

Trees that were read are better than their type says: names are spelled like names, types are written
out, receivers are structs, and no node number occurs twice. `Numbered` says the last for a list of
numbers drawn while a counter went from one value to another.
-/

namespace StructLang

def Ty.Proper (ty : Ty) : Prop := ty ≠ .unknown ∧ ty ≠ .error

/-- Spelled like a name: a character that begins one, then characters that continue one. -/
def IsName (s : String) : Prop :=
  ∃ c cs, s.toList = c :: cs ∧ Token.isNameStart c = true ∧ ∀ x ∈ cs, Token.isNamePart x = true

/-! ## Nodes by kind -/

mutual

/-- The parts of an expression and the expression itself. -/
def Expr.parts : Expr → List Expr
  | .unary n op e => e.parts ++ [.unary n op e]
  | .binary n op l r => l.parts ++ r.parts ++ [.binary n op l r]
  | .cast n e ty => e.parts ++ [.cast n e ty]
  | .call n name args => partsOf args ++ [.call n name args]
  | .construct n name args => partsOf args ++ [.construct n name args]
  | .access n e member => e.parts ++ [.access n e member]
  | e => [e]

def partsOf : List Expr → List Expr
  | [] => []
  | e :: es => e.parts ++ partsOf es

end

mutual

/-- The expressions in a statement, with their parts. -/
def Stmt.exprs : Stmt → List Expr
  | .declare d => (d.init.map Expr.parts).getD []
  | .assign _ _ e | .expr e => e.parts
  | .branch _ c b none => c.parts ++ b.exprs
  | .branch _ c b (some b') => c.parts ++ b.exprs ++ b'.exprs
  | .ret _ e => (e.map Expr.parts).getD []

def exprsOf : List Stmt → List Expr
  | [] => []
  | s :: rest => s.exprs ++ exprsOf rest

def Block.exprs : Block → List Expr
  | .mk _ stmts => exprsOf stmts

end

mutual

def Stmt.lets : Stmt → List VarDecl
  | .declare d => [d]
  | .branch _ _ b none => b.lets
  | .branch _ _ b (some b') => b.lets ++ b'.lets
  | .assign .. | .ret .. | .expr _ => []

def letsOf : List Stmt → List VarDecl
  | [] => []
  | s :: rest => s.lets ++ letsOf rest

def Block.lets : Block → List VarDecl
  | .mk _ stmts => letsOf stmts

end

mutual

def Stmt.blocks : Stmt → List Block
  | .branch _ _ b none => b.blocks
  | .branch _ _ b (some b') => b.blocks ++ b'.blocks
  | .declare _ | .assign .. | .ret .. | .expr _ => []

def blocksOf : List Stmt → List Block
  | [] => []
  | s :: rest => s.blocks ++ blocksOf rest

def Block.blocks : Block → List Block
  | .mk n stmts => .mk n stmts :: blocksOf stmts

end

/-! ## Node numbers -/

mutual

def Expr.ids : Expr → List Nat
  | .integer n .. | .float n .. | .bool n .. | .text n .. | .var n .. => [n.id]
  | .unary n _ e | .cast n e _ | .access n e _ => e.ids ++ [n.id]
  | .binary n _ l r => l.ids ++ r.ids ++ [n.id]
  | .call n _ args | .construct n _ args => idsOfAll args ++ [n.id]

def idsOfAll : List Expr → List Nat
  | [] => []
  | e :: es => e.ids ++ idsOfAll es

end

def idsOfOption : Option Expr → List Nat
  | none => []
  | some e => e.ids

mutual

/-- The node numbers of a statement: of expressions, declarations and blocks. -/
def Stmt.ids : Stmt → List Nat
  | .declare d => idsOfOption d.init ++ [d.node.id]
  | .assign _ _ e | .expr e => e.ids
  | .branch _ cond t none => cond.ids ++ t.ids
  | .branch _ cond t (some e) => cond.ids ++ t.ids ++ e.ids
  | .ret _ e => idsOfOption e

def idsOfStmts : List Stmt → List Nat
  | [] => []
  | s :: rest => s.ids ++ idsOfStmts rest

def Block.ids : Block → List Nat
  | .mk n stmts => n.id :: idsOfStmts stmts

end

def Item.ids : Item → List Nat
  | .fn f => f.body.ids
  | _ => []

def Program.ids (p : Program) : List Nat := p.items.flatMap Item.ids

mutual

theorem Expr.ids_eq (e : Expr) : e.ids = e.parts.map Expr.id := by
  cases e with
  | integer | float | bool | text | var => rfl
  | unary n op e | cast n e ty | access n e member =>
    rw [Expr.ids, Expr.parts, List.map_append, Expr.ids_eq e]
    rfl
  | binary n op l r =>
    rw [Expr.ids, Expr.parts, List.map_append, List.map_append, Expr.ids_eq l, Expr.ids_eq r]
    rfl
  | call n name args | construct n name args =>
    rw [Expr.ids, Expr.parts, List.map_append, idsOfAll_eq args]
    rfl

theorem idsOfAll_eq (es : List Expr) : idsOfAll es = (partsOf es).map Expr.id := by
  cases es with
  | nil => rfl
  | cons e es => rw [idsOfAll, partsOf, List.map_append, Expr.ids_eq e, idsOfAll_eq es]

end

theorem idsOfOption_eq (e : Option Expr) :
    idsOfOption e = ((e.map Expr.parts).getD []).map Expr.id := by
  cases e with
  | none => rfl
  | some e => exact e.ids_eq

def idsOfNodes (es : List Expr) (ds : List VarDecl) (bs : List Block) : List Nat :=
  es.map Expr.id ++ (ds.map fun d => d.node.id) ++ bs.map Block.id

theorem idsOfNodes_append (es es' : List Expr) (ds ds' : List VarDecl) (bs bs' : List Block) :
    (idsOfNodes es ds bs ++ idsOfNodes es' ds' bs').Perm
      (idsOfNodes (es ++ es') (ds ++ ds') (bs ++ bs')) := by
  rw [List.perm_iff_count]
  intro i
  simp only [idsOfNodes, List.map_append, List.count_append]
  omega

theorem mem_idsOfNodes : i ∈ idsOfNodes es ds bs ↔
      (∃ e ∈ es, e.id = i) ∨ (∃ d ∈ ds, d.node.id = i) ∨ ∃ b ∈ bs, b.id = i := by
  simp [idsOfNodes]

theorem Expr.ids_eq_idsOfNodes (e : Expr) : e.ids = idsOfNodes e.parts [] [] := by
  simp [idsOfNodes, e.ids_eq]

mutual

theorem Stmt.ids_perm (s : Stmt) : s.ids.Perm (idsOfNodes s.exprs s.lets s.blocks) := by
  cases s with
  | declare d => simp [Stmt.ids, Stmt.exprs, Stmt.lets, Stmt.blocks, idsOfNodes, idsOfOption_eq]
  | assign span name e | expr e => exact .of_eq e.ids_eq_idsOfNodes
  | branch span c t e =>
    cases e with
    | none =>
      rw [Stmt.ids, c.ids_eq_idsOfNodes]
      exact ((Block.ids_perm t).append_left _).trans (idsOfNodes_append ..)
    | some e =>
      rw [Stmt.ids, c.ids_eq_idsOfNodes]
      exact ((((Block.ids_perm t).append_left _).trans (idsOfNodes_append ..)).append
        (Block.ids_perm e)).trans (idsOfNodes_append ..)
  | ret span e => simp [Stmt.ids, Stmt.exprs, Stmt.lets, Stmt.blocks, idsOfNodes, idsOfOption_eq]

theorem idsOfStmts_perm (ss : List Stmt) :
    (idsOfStmts ss).Perm (idsOfNodes (exprsOf ss) (letsOf ss) (blocksOf ss)) := by
  cases ss with
  | nil => exact .nil
  | cons s rest =>
    exact ((Stmt.ids_perm s).append (idsOfStmts_perm rest)).trans (idsOfNodes_append ..)

theorem Block.ids_perm (b : Block) : b.ids.Perm (idsOfNodes b.exprs b.lets b.blocks) := by
  cases b with
  | mk n stmts =>
    have hown : [n.id].Perm (idsOfNodes [] [] [.mk n stmts]) := .refl _
    exact (hown.append (idsOfStmts_perm stmts)).trans (idsOfNodes_append ..)

end

def Program.exprs (p : Program) : List Expr := p.functions.flatMap fun g => g.body.exprs

def Program.lets (p : Program) : List VarDecl := p.functions.flatMap fun g => g.body.lets

def Program.blocks (p : Program) : List Block := p.functions.flatMap fun g => g.body.blocks

theorem Program.ids_eq (p : Program) : p.ids = p.functions.flatMap fun g => g.body.ids := by
  unfold ids functions
  induction p.items with
  | nil => rfl
  | cons i rest ih => cases i <;> simp [ih, Item.ids]

theorem Program.ids_perm (p : Program) : p.ids.Perm (idsOfNodes p.exprs p.lets p.blocks) := by
  rw [ids_eq, exprs, lets, blocks]
  induction p.functions with
  | nil => exact .nil
  | cons g rest ih => exact ((Block.ids_perm g.body).append ih).trans (idsOfNodes_append ..)

/-- Numbers that were drawn, each once, while a counter went from `lo` to `hi`. -/
def Numbered (lo hi : Nat) (ids : List Nat) : Prop := ids.Nodup ∧ ∀ i ∈ ids, lo ≤ i ∧ i < hi

namespace Numbered

theorem nil : Numbered lo hi [] := by simp [Numbered]

theorem single (i : Nat) (hlo : lo ≤ i) (hhi : i < hi) : Numbered lo hi [i] := by
  simp [Numbered, hlo, hhi]

theorem mono (h : Numbered lo hi xs) (hlo : lo' ≤ lo) (hhi : hi ≤ hi') : Numbered lo' hi' xs := by
  refine ⟨h.1, fun i hi => ?_⟩
  have := h.2 i hi
  omega

theorem append (hx : Numbered lo mid xs) (hy : Numbered mid hi ys) (hlo : lo ≤ mid)
    (hhi : mid ≤ hi) : Numbered lo hi (xs ++ ys) := by
  refine ⟨List.nodup_append.mpr ⟨hx.1, hy.1, ?_⟩, ?_⟩
  · intro a ha b hb
    have := hx.2 a ha
    have := hy.2 b hb
    omega
  · intro i hi
    rcases List.mem_append.mp hi with h | h
    · have := hx.2 i h
      omega
    · have := hy.2 i h
      omega

theorem perm (h : Numbered lo hi xs) (hp : xs.Perm ys) : Numbered lo hi ys :=
  ⟨hp.nodup_iff.mp h.1, fun i hi => h.2 i (hp.mem_iff.mpr hi)⟩

end Numbered

/-! ## Names and types -/

def TypedName.Grammatical (t : TypedName) : Prop := IsName t.name ∧ t.ty.Proper

mutual

def Stmt.Grammatical : Stmt → Prop
  | .declare d => IsName d.name ∧ ∀ ty ∈ d.annotation, ty.Proper
  | .branch _ _ t none => t.Grammatical
  | .branch _ _ t (some e) => t.Grammatical ∧ e.Grammatical
  | _ => True

def GrammaticalStmts : List Stmt → Prop
  | [] => True
  | s :: rest => s.Grammatical ∧ GrammaticalStmts rest

def Block.Grammatical : Block → Prop
  | .mk _ stmts => GrammaticalStmts stmts

end

/-- A function whose names and types are proper and whose receiver is a struct. -/
structure FnDef.Grammatical (f : FnDef) : Prop where
  receiver : ∀ ty ∈ f.receiver, ∃ name, ty = .struct name
  params : ∀ p ∈ f.params, p.Grammatical
  ret : f.ret.Proper
  body : f.body.Grammatical

structure ForeignDecl.Grammatical (d : ForeignDecl) : Prop where
  params : ∀ p ∈ d.params, p.Grammatical
  ret : d.ret.Proper

def Item.Grammatical : Item → Prop
  | .importing _ => True
  | .struct d => ∀ f ∈ d.fields, f.Grammatical
  | .fn f => f.Grammatical
  | .foreign d => d.Grammatical

/-- What reading guarantees of a program. -/
structure Program.Grammatical (p : Program) : Prop where
  items : ∀ i ∈ p.items, i.Grammatical
  ids_nodup : p.ids.Nodup

end StructLang
