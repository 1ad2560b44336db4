import StructLang.FileTree
import StructLang.Toolchain

/-!
# Hosts

What a compilation asks of the machine on which it runs: files and tools. A file tree is a host without
tools.
-/

namespace StructLang

/-- Access to files and tools, in a monad that says how. -/
structure Host (m : Type → Type) where
  read : String → m (Except FileError String)
  isFile : String → m Bool
  /-- A text that two paths share exactly when they lead to the same file. -/
  identity : String → m String
  write : String → String → m (Except FileError Unit)
  /-- Remove a file, if there is one. -/
  remove : String → m Unit
  /-- Run a command to its end; the error says why it did not start. -/
  start : Invocation → m (Except FileError Unit)

namespace FileTree

/-- The host whose files are those of a tree. -/
def host : Host (StateM FileTree) where
  read path := do return (← get).read path
  isFile path := do return (← get).isFile path
  identity path := do
    return match (← get).resolve path with
      | .ok place => Path.ofParts place
      | .error _ => path
  write path text := do
    match (← get).write path text with
    | .ok t =>
      set t
      return .ok ()
    | .error e => return .error e
  remove path := modify fun t => t.remove path
  start _ := return .error .notFound

end FileTree

end StructLang
