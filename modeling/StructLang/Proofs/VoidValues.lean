import StructLang.Proofs.Lowering

/-!
# Where values of type `void` can stand

A call of a function without a result is an expression of type `void`. Checking keeps such expressions
out of variables and fields, but a parameter may have this type, and such an expression may be an
argument of a call or the value that a function returns.
-/

namespace StructLang

mutual

/-- The arguments of the calls in an expression. -/
def Expr.callArgs : Expr → List Expr
  | .integer .. | .float .. | .bool .. | .text .. | .var .. => []
  | .unary _ _ e | .cast _ e _ | .access _ e _ => e.callArgs
  | .binary _ _ l r => l.callArgs ++ r.callArgs
  | .call _ _ args => args ++ callArgsOf args
  | .construct _ _ args => callArgsOf args

def callArgsOf : List Expr → List Expr
  | [] => []
  | e :: es => e.callArgs ++ callArgsOf es

end

mutual

def Stmt.callArgs : Stmt → List Expr
  | .declare d => (d.init.map Expr.callArgs).getD []
  | .assign _ _ e | .expr e => e.callArgs
  | .branch _ cond t none => cond.callArgs ++ t.callArgs
  | .branch _ cond t (some e) => cond.callArgs ++ t.callArgs ++ e.callArgs
  | .ret _ e => (e.map Expr.callArgs).getD []

def callArgsOfStmts : List Stmt → List Expr
  | [] => []
  | s :: rest => s.callArgs ++ callArgsOfStmts rest

def Block.callArgs : Block → List Expr
  | .mk _ stmts => callArgsOfStmts stmts

end

mutual

def Stmt.returned : Stmt → List Expr
  | .declare _ | .assign .. | .expr _ | .ret _ none => []
  | .branch _ _ t none => t.returned
  | .branch _ _ t (some e) => t.returned ++ e.returned
  | .ret _ (some e) => [e]

def returnedBy : List Stmt → List Expr
  | [] => []
  | s :: rest => s.returned ++ returnedBy rest

def Block.returned : Block → List Expr
  | .mk _ stmts => returnedBy stmts

end

theorem ne_void_of_meets (h : Typing.meets ty d = true) : ty ≠ .void := by
  rintro rfl
  cases d <;> cases h

def NoVoid (types : TypeTable) (es : List Expr) : Prop := ∀ e ∈ es, types[e.id]? ≠ some .void

instance (types : TypeTable) (es : List Expr) : Decidable (NoVoid types es) :=
  inferInstanceAs (Decidable (∀ e ∈ es, types[e.id]? ≠ some .void))

@[simp] theorem noVoid_append : NoVoid types (es ++ es') ↔ NoVoid types es ∧ NoVoid types es' := by
  simp only [NoVoid, List.forall_mem_append]

@[simp] theorem noVoid_cons :
    NoVoid types (e :: es) ↔ types[e.id]? ≠ some .void ∧ NoVoid types es := by
  simp only [NoVoid, List.forall_mem_cons]

@[simp] theorem noVoid_nil : NoVoid types [] := by simp [NoVoid]

theorem TypedAll.ne_void (h : TypedAll f names es ts) (hv : NoVoid f.types es) :
    ∀ ty ∈ ts, ty ≠ .void := by
  induction es generalizing ts with
  | nil =>
    cases h
    simp
  | cons e es ih =>
    cases h with
    | cons he hes =>
      rw [noVoid_cons, he.type?] at hv
      exact List.forall_mem_cons.mpr ⟨fun heq => hv.1 (congrArg some heq), ih hes hv.2⟩

def Scope.NoVoid (scope : Scope Binding) : Prop :=
  ∀ name b, scope.lookup? name = some b → b.ty ≠ .void

namespace Scope.NoVoid

variable {scope : Scope Binding}

theorem push (h : scope.NoVoid) : scope.push.NoVoid := h

theorem define (h : scope.NoVoid) (hb : b.ty ≠ .void) : (scope.define name b).NoVoid := by
  intro other b' hl
  rw [lookup?_define] at hl
  split at hl
  · cases hl
    exact hb
  · exact h other b' hl

end Scope.NoVoid

namespace Program

def NoVoidParam (p : Program) : Prop := ∀ g ∈ p.functions, ∀ q ∈ g.params, q.ty ≠ .void

def NoVoidArg (p : Program) : Prop :=
  ∀ g ∈ p.functions, NoVoid p.analyze.typeTable g.body.callArgs

/-- No function of the program returns an expression of type `void`. -/
def NoVoidReturn (p : Program) : Prop :=
  ∀ g ∈ p.functions, NoVoid p.analyze.typeTable g.body.returned

instance (p : Program) : Decidable p.NoVoidParam :=
  inferInstanceAs (Decidable (∀ g ∈ p.functions, ∀ q ∈ g.params, q.ty ≠ .void))

instance (p : Program) : Decidable p.NoVoidArg :=
  inferInstanceAs (Decidable (∀ g ∈ p.functions, NoVoid p.analyze.typeTable g.body.callArgs))

instance (p : Program) : Decidable p.NoVoidReturn :=
  inferInstanceAs (Decidable (∀ g ∈ p.functions, NoVoid p.analyze.typeTable g.body.returned))

end Program

end StructLang
