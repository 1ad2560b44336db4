import StructLang.Flat.Lower
import StructLang.Flat.Print
import StructLang.Ssa.Check
import StructLang.Ssa.Lower
import StructLang.Ssa.Print

/-!
# Backends

The two kinds of code that a checked program can become, and their texts. SSA code is checked before it
is written out; flat code is taken as it is.
-/

namespace StructLang

/-- The tool chain for which code is generated. -/
inductive Backend where
  | llvm | qbe
deriving DecidableEq

namespace Backend

/-- The backend on the command line. -/
def name : Backend → String
  | llvm => "llvm"
  | qbe => "qbe"

def extension : Backend → String
  | llvm => "ll"
  | qbe => "ssa"

end Backend

/-- Generated code. -/
inductive Code where
  | ssa (module : Ssa.Module)
  | flat (module : Flat.Module)

/-- Generate code for a program, given what its analysis found. -/
def Backend.generate (b : Backend) (module : String) (p : Program) (analysis : Analysis) :
    Except LoweringError Code :=
  match b with
  | llvm => .ssa <$> Ssa.Module.ofProgram module p analysis
  | qbe => .flat <$> Flat.Module.ofProgram p analysis

/-- Why there is no text. -/
inductive EmitError where
  | lowering (e : LoweringError)
  | malformed (flaw : Ssa.Flaw)
  /-- Nothing has been generated. -/
  | nothing

def EmitError.message : EmitError → String
  | lowering e => e.message
  | malformed flaw => s!"IR verification failed: {flaw.message}"
  | nothing => LoweringError.Kind.codeGeneration.headline "no module generated"

/-- The text of generated code, if there is some and it is well formed. -/
def Code.emit : Option Code → Except EmitError String
  | none => .error .nothing
  | some (.ssa m) => do
    m.check.mapError .malformed
    return m.text
  | some (.flat m) => .ok m.text

end StructLang
