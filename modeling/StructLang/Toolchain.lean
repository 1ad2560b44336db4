import StructLang.Backend
import StructLang.Path

/-!
# Tools

The commands that turn generated code into an executable: `clang` for LLVM assembly, and `qbe` followed
by `cc` for QBE assembly.
-/

namespace StructLang

/-- A command with its arguments. -/
structure Invocation where
  program : String
  args : List String
deriving DecidableEq

/-- The command as typed in a shell. -/
def Invocation.line (i : Invocation) : String := " ".intercalate (i.program :: i.args)

/-- What the tools need to know. -/
structure LinkRequest where
  backend : Backend
  codeFile : String
  output : String
  optLevel : Nat
  libraries : List String

namespace LinkRequest

/-- The libraries for the linker; if none is named, those of C. -/
def libraryFlags (r : LinkRequest) : List String :=
  (if r.libraries.isEmpty then ["c", "m"] else r.libraries).map fun l => "-l" ++ l

/-- The file that holds machine assembly between two commands. -/
def assemblyFile (r : LinkRequest) : String := Path.withExtension r.codeFile "s"

/-- The commands in order. -/
def invocations (r : LinkRequest) : List Invocation :=
  match r.backend with
  | .llvm => [⟨"clang", [r.codeFile, "-o", r.output, s!"-O{r.optLevel}"] ++ r.libraryFlags⟩]
  | .qbe => [⟨"qbe", ["-o", r.assemblyFile, r.codeFile]⟩,
      ⟨"cc", [r.assemblyFile, "-o", r.output] ++ r.libraryFlags⟩]

/-- The files to remove once the commands are done. -/
def intermediates (r : LinkRequest) (keepCode : Bool) : List String :=
  (if r.backend = .qbe then [r.assemblyFile] else []) ++ if keepCode then [] else [r.codeFile]

end LinkRequest

end StructLang
