import StructLang.Diagnostic
import StructLang.Tree.Basic

/-!
# Analyses

What checking a program finds out: reports, the type of each expression and variable declaration, and
the declarations that stand directly in each block. Analyses of parts are joined by `++`.
-/

namespace StructLang

/-- Findings about a program or a part of it. -/
structure Analysis where
  /-- Reports in the order in which the rules were broken. -/
  diagnostics : List Diagnostic := []
  /-- Node numbers with the types of their nodes. -/
  types : List (Nat × Ty) := []
  /-- Block numbers with the numbers of the declarations that stand directly in the block. -/
  declared : List (Nat × List Nat) := []

namespace Analysis

instance : EmptyCollection Analysis := ⟨{}⟩

instance : Append Analysis :=
  ⟨fun a b => ⟨a.diagnostics ++ b.diagnostics, a.types ++ b.types, a.declared ++ b.declared⟩⟩

/-- A number of reports and nothing else. -/
def reports (ds : List Diagnostic) : Analysis := { diagnostics := ds }

/-- The type of one node and nothing else. -/
def typed (id : Nat) (ty : Ty) : Analysis := { types := [(id, ty)] }

/-- An entry for a block, which is empty if it is new. -/
def withBlock (a : Analysis) (block : Nat) : Analysis :=
  if (a.declared.lookup block).isSome then a else { a with declared := a.declared ++ [(block, [])] }

/-- List declarations behind those of a block. -/
def extend (block : Nat) (decls : List Nat) (table : List (Nat × List Nat)) : List (Nat × List Nat) :=
  table.map fun e => if e.1 = block then (e.1, e.2 ++ decls) else e

/-- List one more declaration for a block. -/
def declare (a : Analysis) (block decl : Nat) : Analysis :=
  { a.withBlock block with declared := extend block [decl] (a.withBlock block).declared }

/-- Whether a report stops compilation. -/
def hasErrors (a : Analysis) : Bool := a.diagnostics.any Diagnostic.isError

/-- The type found for a node. -/
def type? (a : Analysis) (id : Nat) : Option Ty := a.types.lookup id

/-- The declarations that stand directly in a block. -/
def declaredIn (a : Analysis) (block : Nat) : List Nat := (a.declared.lookup block).getD []

@[simp] theorem diagnostics_append (a b : Analysis) :
    (a ++ b).diagnostics = a.diagnostics ++ b.diagnostics := rfl

@[simp] theorem types_append (a b : Analysis) : (a ++ b).types = a.types ++ b.types := rfl

@[simp] theorem declared_append (a b : Analysis) :
    (a ++ b).declared = a.declared ++ b.declared := rfl

end Analysis

end StructLang
