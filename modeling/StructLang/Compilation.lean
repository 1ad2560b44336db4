import StructLang.Splice
import StructLang.Typing.Check

/-!
# Compilations

From an input file to reports, generated code and an executable. A program with an error stops after its
reports; what goes wrong later is no mistake of the user.
-/

namespace StructLang

/-- How reports are written. -/
inductive MessageFormat where
  | human | json
deriving DecidableEq

/-- What to compile and how. -/
structure Options where
  input : String
  output : Option String := none
  backend : Backend := .llvm
  /-- Stop when the code is written. -/
  emitOnly : Bool := false
  /-- Keep the code next to the executable. -/
  keepCode : Bool := false
  optLevel : Nat := 0
  libraries : List String := []
  includes : List String := []
  format : MessageFormat := .human
  verbose : Bool := false

/-- What is known about a program once it is read and checked. -/
structure Checked where
  sources : Sources
  /-- The identities of the files that were read. -/
  loaded : List String
  /-- The first number that no node has. -/
  nextId : Nat
  diagnostics : List Diagnostic
  /-- The program and its analysis, unless there is an error. -/
  accepted : Option (Program × Analysis)

/-- How a compilation ends. -/
inductive Outcome where
  | failed (errors : Nat)
  | checked
  | emitted (path : String)
  | built (path : String)
deriving DecidableEq

/-- Why a compilation does not come to its end. -/
inductive CompileError where
  | unreadable (path : String) (e : FileError)
  /-- No code for a program without errors. -/
  | internal (e : EmitError)
  | unwritable (path : String) (e : FileError)
  | notStarted (program : String) (e : FileError)

def CompileError.message : CompileError → String
  | unreadable path e => s!"IO error: {path}: {e.message}"
  | internal e => s!"internal compiler error: {e.message}"
  | unwritable path e => s!"could not write IR: IO error: {path}: {e.message}"
  | notStarted program e => s!"failed to start `{program}`: {e.message}"

/-- Check a program that has been read; after a mistake of form its meaning is not looked at. -/
def Checked.ofLoading (p : Program) (l : Loading) : Checked :=
  if l.diagnostics.any Diagnostic.isError then
    ⟨l.sources, l.loaded, l.nextId, l.diagnostics, none⟩
  else
    let analysis := p.analyze
    ⟨l.sources, l.loaded, l.nextId, l.diagnostics ++ analysis.diagnostics,
      if analysis.hasErrors then none else some (p, analysis)⟩

/-- How a check alone ends. -/
def Checked.outcome (c : Checked) : Outcome :=
  match c.accepted with
  | some _ => .checked
  | none => .failed (c.diagnostics.countP Diagnostic.isError)

/-- The reports as they are shown; mere information only on demand. -/
def Checked.report (c : Checked) (o : Options) : String :=
  String.join <| (c.diagnostics.filter fun d => o.verbose || d.level ≠ .info).map fun d =>
    match o.format with
    | .human => d.human c.sources
    | .json => d.json c.sources ++ "\n"

namespace Options

/-- The name of the module that is generated. -/
def moduleName (o : Options) : String := (Path.stem? o.input).getD "module"

/-- The executable to build. -/
def executable (o : Options) : String := o.output.getD (Path.withExtension o.input "")

/-- The file to which the code goes. -/
def codeFile (o : Options) : String :=
  if o.emitOnly then o.output.getD (Path.withExtension o.input o.backend.extension)
  else Path.withExtension o.executable o.backend.extension

/-- What the tools are asked to do with the code. -/
def linkRequest (o : Options) : LinkRequest :=
  ⟨o.backend, o.codeFile, o.executable, o.optLevel, o.libraries⟩

/-- The text of the code for a checked program. -/
def codeText (o : Options) (p : Program) (analysis : Analysis) : Except EmitError String := do
  let code ← (o.backend.generate o.moduleName p analysis).mapError .lowering
  Code.emit (some code)

variable {m : Type → Type} [Monad m]

/-- Read and check the input with its imports, which nest at most `depth` deep. -/
def check (o : Options) (host : Host m) (depth : Nat) : m (Except CompileError Checked) := do
  match ← Loading.loadEntry host o.includes depth o.input with
  | .error e => return .error (.unreadable o.input e)
  | .ok (p, l) => return .ok (.ofLoading p l)

/-- Run commands in order up to the first that does not start. -/
def runAll (host : Host m) : List Invocation → m (Except CompileError Unit)
  | [] => return .ok ()
  | i :: rest => do
    match ← host.start i with
    | .error e => return .error (.notStarted i.program e)
    | .ok () => runAll host rest

def removeAll (host : Host m) : List String → m Unit
  | [] => return ()
  | path :: rest => do
    host.remove path
    removeAll host rest

/-- Turn code that has been written into an executable. -/
def link (o : Options) (host : Host m) : m (Except CompileError Outcome) := do
  let result ← runAll host o.linkRequest.invocations
  removeAll host (o.linkRequest.intermediates o.keepCode)
  return result.map fun () => .built o.executable

/-- Go on with a checked program. -/
def finish (o : Options) (host : Host m) (c : Checked) : m (Except CompileError Outcome) := do
  match c.accepted with
  | none => return .ok c.outcome
  | some (p, analysis) =>
    match o.codeText p analysis with
    | .error e => return .error (.internal e)
    | .ok text =>
      match ← host.write o.codeFile text with
      | .error e => return .error (.unwritable o.codeFile e)
      | .ok () => if o.emitOnly then return .ok (.emitted o.codeFile) else o.link host

end Options

end StructLang
