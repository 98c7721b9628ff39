import DatalogRam.Datalog.Program
import DatalogRam.Ram.Symbols
import DatalogRam.Ram.Text
import DatalogRam.Ram.Arena

/-!
# Machine programs

A program declares tables, has a main statement and named subroutines, and starts with a table of symbols. The
code is kept both as trees and as the arena in which the trees were laid out.
-/

namespace DatalogRam.Ram

/-- A declared relation of the machine. -/
structure Table where
  name : String
  /-- The number of columns. -/
  arity : Nat
  /-- How many columns at the end keep book and are not part of the relation's logical content. -/
  auxiliary : Nat
  columnNames : List String
  columnTypes : List String
  representation : Representation
  deriving DecidableEq, Repr

/-- The number of columns that the source program sees. -/
def Table.logicalArity (table : Table) : Nat :=
  table.arity - table.auxiliary

def Table.text (table : Table) : String :=
  let columns := (table.columnNames.zip table.columnTypes).map fun (name, type) => name ++ ":" ++ type
  table.name ++ "(" ++ ",".intercalate columns ++ ") " ++ table.representation.text

structure Subroutine where
  body : Placed Stmt
  /-- The names of the arguments, in the order in which they are passed. -/
  parameters : List String

/-- Subroutines in the order of their names. -/
abbrev Subroutines := List (String × Subroutine)

/-- Add a subroutine, in place of one with the same name. -/
def Subroutines.insert (name : String) (subroutine : Subroutine) : Subroutines → Subroutines
  | [] => [(name, subroutine)]
  | entry :: rest =>
      if name < entry.1 then (name, subroutine) :: entry :: rest
      else if name = entry.1 then (name, subroutine) :: rest
      else entry :: Subroutines.insert name subroutine rest

structure Program where
  arena : Arena
  tables : List Table
  main : Placed Stmt
  subroutines : Subroutines
  symbols : Symbols

/-- The first table with a name. -/
def findTable? (tables : List Table) (name : String) : Option Table :=
  tables.find? (fun table => table.name == name)

def Program.table? (program : Program) (name : String) : Option Table :=
  findTable? program.tables name

def Program.subroutine? (program : Program) (name : String) : Option Subroutine :=
  program.subroutines.lookup name

/-- The whole program as text. -/
def Program.text (program : Program) : String :=
  let subroutineLines := program.subroutines.flatMap fun (name, subroutine) =>
    indented 1 ("SUBROUTINE " ++ name) :: subroutine.body.tree.lines 2 ++ [indented 1 "END SUBROUTINE"]
  ofLines
    (["PROGRAM", indented 1 "DECLARATION"] ++ program.tables.map (fun table => indented 2 table.text) ++
      [indented 1 "END DECLARATION"] ++ subroutineLines ++ [indented 1 "BEGIN MAIN"] ++
      program.main.tree.lines 2 ++ [indented 1 "END MAIN", "END PROGRAM"])

end DatalogRam.Ram
