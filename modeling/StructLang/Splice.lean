import StructLang.Host
import StructLang.Tree.ReadProgram

/-!
# Splicing imports

An import stands for the items of the file to which it leads: next to the importing file, else in one of
the search directories, else at the top. Each file is taken once, at its first import.
-/

namespace StructLang

/-- What has been read so far. -/
structure Loading where
  sources : Sources
  /-- The identities of the files. -/
  loaded : List String
  /-- The first number that no node has. -/
  nextId : Nat
  diagnostics : List Diagnostic

namespace Loading

def empty : Loading := ⟨.empty, [], 0, []⟩

/-- A step of reading. -/
abbrev Load (m : Type → Type) := StateT Loading m

variable {m : Type → Type} [Monad m]

def report (message : String) (span : Span) : Load m Unit :=
  modify fun l => { l with diagnostics := l.diagnostics ++ [⟨.error, message, some span⟩] }

/-- Note a file; whether it is new. -/
def markLoaded (identity : String) : Load m Bool := do
  if (← get).loaded.contains identity then return false
  modify fun l => { l with loaded := l.loaded ++ [identity] }
  return true

/-- The first of the given paths that leads to a file. -/
def firstFile? (host : Host m) : List String → m (Option String)
  | [] => return none
  | path :: rest => do if ← host.isFile path then return some path else firstFile? host rest

/-- The paths under which an imported module is looked for. -/
def candidates (includes : List String) (dir : String) (i : Import) : List String :=
  (dir :: includes ++ ["."]).map fun d => Path.join d (Path.ofModule i.path)

/-- The items for which an import stands, with a way to load a file as a module. -/
def importItems (host : Host m) (includes : List String) (dir : String)
    (load : String → String → String → Load m (List Item)) (i : Import) : Load m (List Item) := do
  let found ← (firstFile? host (candidates includes dir i) : m (Option String))
  match found with
  | none =>
    report s!"Could not resolve module '{i.dotted}'" i.span
    return []
  | some path =>
    if !(← markLoaded (← host.identity path)) then return []
    match ← host.read path with
    | .ok text => load path text i.dotted
    | .error e =>
      report s!"Could not read module '{i.dotted}': {e.message}" i.span
      return []

/-- Items with imports replaced and functions marked with their module. -/
def spliceItems (module : String) (importing : Import → Load m (List Item)) :
    List Item → Load m (List Item)
  | [] => return []
  | .importing i :: rest => do
    let items ← importing i
    return items ++ (← spliceItems module importing rest)
  | .fn f :: rest => do
    return .fn { f with module := module } :: (← spliceItems module importing rest)
  | item :: rest => do return item :: (← spliceItems module importing rest)

/-- The items of a text that was read from a path as a module. Files nest at most `depth` deep; as no
file is taken twice, the number of files is deep enough. -/
def loadText (host : Host m) (includes : List String) :
    Nat → String → String → String → Load m (List Item)
  | 0, _, _, _ => return []
  | depth + 1, path, text, module => do
    let l ← get
    let file := l.sources.files.length
    set { l with sources := l.sources.add ⟨path, text⟩ }
    match Program.parse text file l.nextId with
    | .error es =>
      es.forM fun e => report e.message e.span
      return []
    | .ok (p, nextId) =>
      modify fun l => { l with nextId := nextId }
      spliceItems module
        (importItems host includes (Path.parent path) (loadText host includes depth)) p.items

/-- Read the entry file with all its imports. -/
def loadEntry (host : Host m) (includes : List String) (depth : Nat) (path : String) :
    m (Except FileError (Program × Loading)) := do
  match ← host.read path with
  | .error e => return .error e
  | .ok text =>
    let identity ← host.identity path
    let start := { empty with loaded := [identity] }
    let (items, l) ← (loadText host includes depth path text "").run start
    return .ok (⟨items⟩, l)

end Loading

end StructLang
