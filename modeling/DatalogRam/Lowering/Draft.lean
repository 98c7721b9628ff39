import DatalogRam.Event
import DatalogRam.Lowering.Error
import DatalogRam.Ram.Program
import DatalogRam.Ram.Replace

/-!
# Programs in the making

A draft collects the nodes, symbols, tables and subroutines of a machine program while it is written, and the
events that are reported meanwhile. Lowering changes a draft and may fail. After a failure the draft still holds
what was written before it.
-/

namespace DatalogRam.Lowering

open Ram

structure Draft where
  arena : Arena
  symbols : Symbols
  tables : List Table
  subroutines : Subroutines
  events : Array Event

def Draft.empty : Draft where
  arena := .empty
  symbols := .empty
  tables := []
  subroutines := []
  events := #[]

/-- The program with a given main statement. -/
def Draft.finish (draft : Draft) (main : Placed Stmt) : Ram.Program where
  arena := draft.arena
  tables := draft.tables
  main := main
  subroutines := draft.subroutines
  symbols := draft.symbols

/-- Writing a draft. -/
abbrev Lower := ExceptT LoweringError (StateM Draft)

/-- Write into the arena of the draft. -/
def inArena {α : Type} (build : Build α) : Lower α :=
  modifyGet fun ⟨arena, symbols, tables, subroutines, events⟩ =>
    let (result, arena) := build.run arena
    (result, ⟨arena, symbols, tables, subroutines, events⟩)

instance : MonadLift Build Lower := ⟨inArena⟩

/-- Change the arena of the draft by steps that may fail. A failure keeps the changes made before it. -/
def tryInArena {α : Type} (build : ExceptT LoweringError Build α) : Lower α := do
  match ← inArena build.run with
  | .ok result => return result
  | .error error => throw error

instance : MonadLift (Except LoweringError) Lower := ⟨fun result => liftExcept result⟩

/-- The ordinal of a text, which is interned if it is new. -/
def encodeSymbol (text : String) : Lower Int64 :=
  modifyGetThe Draft fun draft =>
    let (ordinal, symbols) := draft.symbols.encode text
    (ordinal, { draft with symbols := symbols })

/-- Declare a table. Only the first of several tables with one name is kept. -/
def declareTable (table : Table) : Lower Unit :=
  modifyThe Draft fun draft =>
    if (findTable? draft.tables table.name).isSome then draft
    else { draft with tables := draft.tables ++ [table] }

def addSubroutine (name : String) (subroutine : Subroutine) : Lower Unit :=
  modifyThe Draft fun draft => { draft with subroutines := draft.subroutines.insert name subroutine }

def report (level : Level) (message : String) (fields : List (String × String)) : Lower Unit :=
  modifyThe Draft fun draft => { draft with events := draft.events.push ⟨level, message, fields⟩ }

end DatalogRam.Lowering
