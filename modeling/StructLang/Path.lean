/-!
# Paths

Paths as texts with parts between slashes. A part that is empty or a single dot names nothing, except a
dot at the very start.
-/

namespace StructLang.Path

/-- The parts of a path between its slashes. -/
def parts (path : String) : List String := (path.toList.splitOn '/').map String.ofList

/-- The path with these parts. -/
def ofParts (ps : List String) : String := "/".intercalate ps

/-- Whether a path starts at the root. -/
def isAbsolute (path : String) : Bool := path.toList.head? == some '/'

/-- Drop the parts at the end that name nothing. The list is in reverse order, and the first part of
the path stays. -/
def dropSilent : List String → List String
  | [] => []
  | [p] => [p]
  | p :: q :: rest => if p = "" || p = "." then dropSilent (q :: rest) else p :: q :: rest

/-- The name at the end of a path, and the parts before it in reverse order. -/
def lastName? (path : String) : Option (String × List String) :=
  match dropSilent (parts path).reverse with
  | [] | [""] | ["."] => none
  | name :: rest => if name = ".." then none else some (name, rest)

/-- A name without its extension: up to the last dot, unless the name only starts with it. -/
def stemOf (name : String) : String :=
  match (name.toList.reverse.dropWhile (· ≠ '.')).drop 1 with
  | [] => name
  | stem => String.ofList stem.reverse

/-- The name at the end of a path without its extension. -/
def stem? (path : String) : Option String := (lastName? path).map fun p => stemOf p.1

/-- A path whose last name ends after its stem and the given extension, which may be empty. A path
without a name at its end stays. -/
def setExtension (path extension : String) : String :=
  match lastName? path with
  | none => path
  | some (name, rest) =>
    let ending := if extension.isEmpty then "" else "." ++ extension
    ofParts ((stemOf name ++ ending) :: rest).reverse

/-- How many characters follow the dot before a name's extension; none if it has no extension. -/
def extensionLength (name : String) : Nat := name.length - (stemOf name).length - 1

/-- A path without as many characters at its end as its extension has, the dot not counted. -/
def dropExtension (path : String) : String :=
  match lastName? path with
  | none => path
  | some (name, _) =>
    String.ofList (path.toList.take (path.length - extensionLength name))

/-- A path with another extension, or without one if that is empty. The old extension goes first: of
`..x` that leaves `..`, which is no name and takes no extension. -/
def withExtension (path extension : String) : String :=
  setExtension (dropExtension path) extension

/-- The directory in which the last part of a path stands. -/
def parent (path : String) : String :=
  match dropSilent (parts path).reverse with
  | [] | [_] => ""
  | _ :: rest =>
    match dropSilent rest with
    | [""] => "/"
    | ps => ofParts ps.reverse

/-- A path below a directory. -/
def join (dir path : String) : String :=
  if isAbsolute path || dir.isEmpty then path
  else if dir.toList.getLast? == some '/' then dir ++ path
  else dir ++ "/" ++ path

def sourceExtension : String := "spz"

/-- The file of a module below its search directory. -/
def ofModule (segments : List String) : String :=
  setExtension (segments.foldl join "") sourceExtension

end StructLang.Path
