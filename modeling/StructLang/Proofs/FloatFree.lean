import StructLang.Tree.Basic

/-!
# Programs without floats

Trees in which there is no literal of a float and no type of floats.
-/

namespace StructLang

mutual

/-- Whether an expression has neither literals of floats nor conversions to them. -/
def Expr.isFloatFree : Expr → Bool
  | .float .. => false
  | .integer .. | .bool .. | .text .. | .var .. => true
  | .unary _ _ e | .access _ e _ => e.isFloatFree
  | .binary _ _ l r => l.isFloatFree && r.isFloatFree
  | .cast _ e target => !target.isFloat && e.isFloatFree
  | .call _ _ args | .construct _ _ args => areFloatFree args

def areFloatFree : List Expr → Bool
  | [] => true
  | e :: es => e.isFloatFree && areFloatFree es

end

def VarDecl.isFloatFree (d : VarDecl) : Bool :=
  !(d.annotation.any Ty.isFloat) && d.init.all Expr.isFloatFree

mutual

def Stmt.isFloatFree : Stmt → Bool
  | .declare d => d.isFloatFree
  | .assign _ _ e | .expr e => e.isFloatFree
  | .branch _ cond t none => cond.isFloatFree && t.isFloatFree
  | .branch _ cond t (some e) => cond.isFloatFree && t.isFloatFree && e.isFloatFree
  | .ret _ e => e.all Expr.isFloatFree

def stmtsAreFloatFree : List Stmt → Bool
  | [] => true
  | s :: rest => s.isFloatFree && stmtsAreFloatFree rest

def Block.isFloatFree : Block → Bool
  | .mk _ stmts => stmtsAreFloatFree stmts

end

/-- There is no literal and no type of floats in the program. -/
structure Program.FloatFree (p : Program) : Prop where
  fields : ∀ d ∈ p.structs, ∀ g ∈ d.fields, g.ty.isFloat = false
  signatures : ∀ g ∈ p.functions, ∀ ty ∈ g.signature, ty.isFloat = false
  results : ∀ g ∈ p.functions, g.ret.isFloat = false
  bodies : ∀ g ∈ p.functions, g.body.isFloatFree = true

instance (p : Program) : Decidable p.FloatFree :=
  decidable_of_iff ((∀ d ∈ p.structs, ∀ g ∈ d.fields, g.ty.isFloat = false) ∧
      (∀ g ∈ p.functions, ∀ ty ∈ g.signature, ty.isFloat = false) ∧
      (∀ g ∈ p.functions, g.ret.isFloat = false) ∧ ∀ g ∈ p.functions, g.body.isFloatFree = true)
    ⟨fun h => ⟨h.1, h.2.1, h.2.2.1, h.2.2.2⟩, fun h => ⟨h.fields, h.signatures, h.results, h.bodies⟩⟩

end StructLang
