import DatalogRam.Compiler.Settings
import DatalogRam.Lowering.Unit

/-!
# Compiling

`compile` lowers a program by the compiler's settings and reports where it starts and, if it comes to that,
what it made.
-/

namespace DatalogRam.Compiler

open Lowering

/-- The events before the lowering. -/
def openingEvents (program : Program) : List Event :=
  [⟨.debug, "compiling program",
    [("relations", toString program.relations.length), ("clauses", toString program.clauses.length)]⟩]

/-- The events after a lowering that succeeded. -/
def closingEvents (settings : Settings) (compiled : Ram.Program) : List Event :=
  [⟨.info, "compiled program",
    [("strategy", settings.strategy.name), ("relations", toString compiled.tables.length),
      ("subroutines", toString compiled.subroutines.length)]⟩]

def compile (settings : Settings) (program : Program) : Outcome :=
  let lowered := lowerProgram program settings.strategy settings.debugInfo
  let closing :=
    match lowered.result with
    | .ok compiled => closingEvents settings compiled
    | .error _ => []
  ⟨lowered.result, openingEvents program ++ lowered.events ++ closing⟩

/-- The text of an error of the compiler. -/
def errorMessage (error : LoweringError) : String :=
  "translation failed: " ++ error.message

end DatalogRam.Compiler
