import StructLang.Tree.Basic

/-!
# Linkage names

The symbol under which a function is called: its module, its receiver, its name and its parameter
types, joined by underscores. Foreign functions and the entry point keep their source name.
-/

namespace StructLang

/-- The name of the function with which a program starts. -/
def entryPoint : String := "main"

/-- The symbol of a function. -/
def linkageName (module name : String) (args : List Ty) (receiver : Option Ty) (foreign : Bool) :
    String :=
  if foreign || name == entryPoint then name
  else
    let owner := if module.isEmpty then ""
      else String.ofList (module.toList.map fun c => if c = '.' then '_' else c) ++ "_"
    let subject := match receiver with
      | some ty => ty.name ++ "_"
      | none => ""
    owner ++ subject ++ name ++ String.join (args.map fun ty => "_" ++ ty.name)

/-- The symbol of a function of the program. -/
def FnHeader.linkage (f : FnHeader) : String :=
  linkageName f.module f.name (f.params.map TypedName.ty) f.receiver false

end StructLang
