import StructLang.Path
import StructLang.Text.Utf8

/-!
# File trees

A finite set of files in directories. A path is followed part by part from the top; two paths that lead
to the same place name the same file.
-/

namespace StructLang

/-- Why a file cannot be read or written. -/
inductive FileError where
  | notFound
  | notADirectory
  | isADirectory
  | notUtf8
deriving DecidableEq

/-- The error as the system words it. -/
def FileError.message : FileError → String
  | notFound => "No such file or directory (os error 2)"
  | notADirectory => "Not a directory (os error 20)"
  | isADirectory => "Is a directory (os error 21)"
  | notUtf8 => "stream did not contain valid UTF-8"

/-- A place below the top: names of directories and last of a file or directory. -/
abbrev Place := List String

/-- Files with their places; directories are those that lead to files. -/
structure FileTree where
  files : List (Place × List UInt8)

namespace FileTree

/-- The bytes of the file at a place. -/
def file? (t : FileTree) (place : Place) : Option (List UInt8) := t.files.lookup place

/-- Whether a place is a directory. -/
def isDirectory (t : FileTree) (place : Place) : Bool :=
  place.isEmpty || t.files.any fun f => place.isPrefixOf f.1 && f.1 != place

/-- Follow parts of a path from a place on. -/
def follow (t : FileTree) : Place → List String → Except FileError Place
  | place, [] => .ok place
  | place, p :: rest =>
    if !t.isDirectory place then .error .notADirectory
    else if p = "" || p = "." then t.follow place rest
    else if p = ".." then
      if place.isEmpty then .error .notFound else t.follow place.dropLast rest
    else
      let next := place ++ [p]
      if (t.file? next).isSome || t.isDirectory next then t.follow next rest
      else .error .notFound

/-- The place to which a path leads. -/
def resolve (t : FileTree) (path : String) : Except FileError Place :=
  if path.isEmpty || Path.isAbsolute path then .error .notFound
  else t.follow [] (Path.parts path)

def read (t : FileTree) (path : String) : Except FileError String := do
  match t.file? (← t.resolve path) with
  | none => throw .isADirectory
  | some bytes => (Utf8.decode bytes).mapError fun _ => .notUtf8

def isFile (t : FileTree) (path : String) : Bool :=
  match t.resolve path with
  | .ok place => (t.file? place).isSome
  | .error _ => false

/-- Replace the file at a place or add one. -/
def put (t : FileTree) (place : Place) (bytes : List UInt8) : FileTree :=
  ⟨(place, bytes) :: t.files.filter fun f => f.1 != place⟩

/-- The place that a path gives to a new file, whose directory has to exist. -/
def target (t : FileTree) (path : String) : Except FileError Place :=
  if path.isEmpty || Path.isAbsolute path then .error .notFound
  else
    match (Path.parts path).reverse with
    | [] => .error .notFound
    | name :: above => do
      let above := if name.isEmpty then (above.dropWhile String.isEmpty).drop 1 else above
      let dir ← t.follow [] above.reverse
      if !t.isDirectory dir then throw .notADirectory
      if name = "" || name = "." || name = ".." || t.isDirectory (dir ++ [name]) then
        throw .isADirectory
      return dir ++ [name]

/-- Write a text to a new file or over an old one. -/
def write (t : FileTree) (path text : String) : Except FileError FileTree := do
  return t.put (← t.target path) (Utf8.encode text)

/-- Remove a file, if there is one. -/
def remove (t : FileTree) (path : String) : FileTree :=
  match t.resolve path with
  | .ok place => ⟨t.files.filter fun f => f.1 != place⟩
  | .error _ => t

end FileTree

end StructLang
