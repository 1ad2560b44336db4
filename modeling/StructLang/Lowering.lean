import Std.Data.TreeMap
import StructLang.LoweringError
import StructLang.Scope
import StructLang.Symbols
import StructLang.Typing.Analysis

/-!
# What lowering looks up

The types that an analysis found, by node number, and the meaning of names. What is missing is a
failure of lowering.
-/

namespace StructLang

/-- Types by node number. -/
abbrev TypeTable := Std.TreeMap Nat Ty

/-- The types that an analysis found. -/
def Analysis.typeTable (a : Analysis) : TypeTable :=
  a.types.foldr (fun p t => t.insert p.1 p.2) ∅

/-- The table says of a node what the analysis says. -/
theorem Analysis.getElem?_typeTable (a : Analysis) (id : Nat) : a.typeTable[id]? = a.type? id := by
  unfold Analysis.typeTable Analysis.type?
  induction a.types with
  | nil => simp
  | cons p rest ih =>
    rw [List.foldr_cons, Std.TreeMap.getElem?_insert, ih, List.lookup_cons]
    by_cases h : p.1 = id
    · simp [h]
    · simp [h, beq_false_of_ne (Ne.symm h)]

namespace TypeTable

def typeOf (types : TypeTable) (e : Expr) : Except LoweringError Ty :=
  match types[e.id]? with
  | some ty => .ok ty
  | none => .error (.untypedExpr e.id)

def typesOf (types : TypeTable) (es : List Expr) : Except LoweringError (List Ty) :=
  es.mapM types.typeOf

/-- The type of a declared variable. -/
def typeOfDecl (types : TypeTable) (d : VarDecl) : Except LoweringError Ty :=
  match types[d.node.id]? with
  | some ty => .ok ty
  | none => .error (.untypedVariable d.name)

end TypeTable

/-- The storage of a name in scope. -/
def Scope.storage {α : Type} (scope : Scope α) (name : String) : Except LoweringError α :=
  match scope.lookup? name with
  | some slot => .ok slot
  | none => .error (.unboundVariable name)

/-- The declaration that a call means. -/
def Symbols.callee (symbols : Symbols) (name : String) (args : List Ty) :
    Except LoweringError Callee :=
  (symbols.resolve name args).mapError fun _ => .functionNotFound name

end StructLang
