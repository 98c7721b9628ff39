import DatalogRam.Json.Reader
import DatalogRam.Lowering.Strategy

/-!
# Settings

The settings of the compiler, and how they are written as JSON. An object may leave out either setting but has
no other fields and none twice. A list gives the settings in order and may stop early.
-/

namespace DatalogRam.Compiler

open Json Lowering

structure Settings where
  strategy : Strategy
  /-- Whether the code of a clause is wrapped in a statement with the clause's text. -/
  debugInfo : Bool
  deriving DecidableEq, Repr

namespace Settings

/-- What holds where nothing is said. -/
def standard : Settings :=
  ⟨.seminaive, true⟩

end Settings

def strategyOfName? (name : String) : Option Strategy :=
  if name = "seminaive" then some .seminaive
  else if name = "provenance" then some .provenance
  else none

/-- A strategy is written by its name, or as an object with its name as the only field, which is null. -/
def strategyOfDocument? : Document → Option Strategy
  | .string name => strategyOfName? name
  | .object [(name, .null)] => strategyOfName? name
  | _ => none

namespace Settings

/-- Read fields one after another, given the settings read so far. -/
def ofFields? : Option Strategy → Option Bool → List (String × Document) → Option Settings
  | strategy, debugInfo, [] =>
      some ⟨strategy.getD standard.strategy, debugInfo.getD standard.debugInfo⟩
  | strategy, debugInfo, (name, content) :: fields =>
      if name = "strategy" then
        match strategy, strategyOfDocument? content with
        | none, some strategy => ofFields? (some strategy) debugInfo fields
        | _, _ => none
      else if name = "emit_debug_info" then
        match debugInfo, content.truth? with
        | none, some debugInfo => ofFields? strategy (some debugInfo) fields
        | _, _ => none
      else none

def ofDocument? : Document → Option Settings
  | .object fields => ofFields? none none fields
  | .list [] => some standard
  | .list [strategy] => do return ⟨← strategyOfDocument? strategy, standard.debugInfo⟩
  | .list [strategy, debugInfo] => do
      return ⟨← strategyOfDocument? strategy, ← debugInfo.truth?⟩
  | _ => none

/-- Read settings from a text. -/
def parse? (text : String) : Option Settings :=
  (Document.parse? text).bind ofDocument?

def document (settings : Settings) : Document :=
  .object [("strategy", .string settings.strategy.name), ("emit_debug_info", .bool settings.debugInfo)]

end Settings

end DatalogRam.Compiler
