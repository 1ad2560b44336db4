import StructLang.Linkage

/-!
# Symbols of a program

The structs, foreign functions and function headers of a program, and which of them a name means.
A call means the first foreign declaration whose parameter types equal the argument types, else the
first function of the program whose signature does; a method is compared with its receiver in front.
-/

namespace StructLang

/-- What the items of a program declare. -/
structure Symbols where
  structs : List StructDef
  foreigns : List ForeignDecl
  functions : List FnHeader

/-- The declarations of a program. -/
def Program.symbols (p : Program) : Symbols :=
  ⟨p.structs, p.foreigns, p.functions.map FnDef.toFnHeader⟩

/-- The declaration that a call means. -/
inductive Callee where
  | foreign (decl : ForeignDecl)
  | user (header : FnHeader)

namespace Callee

def ret : Callee → Ty
  | foreign d => d.ret
  | user f => f.ret

/-- Parameter types as a caller sees them: the receiver first. -/
def signature : Callee → List Ty
  | foreign d => d.params.map TypedName.ty
  | user f => f.signature

def linkage : Callee → String
  | foreign d => linkageName "" d.name (d.params.map TypedName.ty) none true
  | user f => f.linkage

/-- Whether the first argument is a receiver. -/
def hasReceiver : Callee → Bool
  | foreign _ => false
  | user f => f.receiver.isSome

end Callee

/-- Why a call means nothing. -/
inductive ResolveError where
  /-- Nothing has this name. -/
  | notFound
  /-- Nothing with this name takes these arguments. -/
  | noMatch
deriving DecidableEq

namespace Symbols

/-- The first struct with this name. -/
def struct? (s : Symbols) (name : String) : Option StructDef :=
  s.structs.find? fun d => d.name == name

/-- Position and type of a member of a struct type. -/
def field? (s : Symbols) (ty : Ty) (member : String) : Option (Nat × Ty) := do
  let d ← s.struct? (← ty.structName?)
  let (i, f) ← d.field? member
  return (i, f.ty)

/-- The declaration that a call means. -/
def resolve (s : Symbols) (name : String) (args : List Ty) : Except ResolveError Callee :=
  match s.foreigns.find? fun d => d.name == name && d.params.map TypedName.ty == args with
  | some d => .ok (.foreign d)
  | none =>
    match s.functions.find? fun f => f.name == name && f.signature == args with
    | some f => .ok (.user f)
    | none =>
      if s.foreigns.any (fun d => d.name == name) || s.functions.any (fun f => f.name == name) then
        .error .noMatch
      else .error .notFound

end Symbols

end StructLang
