/-!
# Runs

What the runs of both kinds of code have in common: how deep calls may nest, and how a run ends.
-/

namespace StructLang

/-- How many invocations of functions of the module may be under way at once. -/
def maxDepth : Nat := 4096

/-- Why a run gives no result. -/
inductive Stop (Fault : Type) where
  | fault (f : Fault)
  /-- The budget was used up. -/
  | outOfBudget

/-- Code that reads and changes a machine. Where it stops, the machine stays as it was then. -/
abbrev Execution (Fault Machine : Type) := EStateM (Stop Fault) Machine

/-- What a finished run leaves. -/
structure RunResult where
  code : Int64
  output : String
deriving DecidableEq

end StructLang
