import DatalogRam.Machine.Arithmetic
import DatalogRam.Machine.Store
import DatalogRam.Ram.Program

/-!
# Execution

Machine code runs on a store, a table of symbols, a counter and the rows that are bound to numbers. A row stays
bound until another one is bound to its number. A fault ends the run and leaves everything as it was at that
point.

A loop need not end. Every loop may make only as many rounds as it is allowed, and running out of them is told
apart from a fault: it says nothing about the program.
-/

namespace DatalogRam.Machine

open Ram

/-- Rows bound to numbers. -/
abbrev Bindings := List (Nat × Row)

/-- Bind a row to a number, in place of an earlier one. -/
def Bindings.set (tuple : Nat) (row : Row) : Bindings → Bindings
  | [] => [(tuple, row)]
  | entry :: rest => if entry.1 = tuple then (tuple, row) :: rest else entry :: Bindings.set tuple row rest

theorem Bindings.lookup_set (bindings : Bindings) (tuple other : Nat) (row : Row) :
    (bindings.set tuple row).lookup other = if other = tuple then some row else bindings.lookup other := by
  induction bindings with
  | nil => grind [Bindings.set]
  | cons entry rest ih => grind [Bindings.set]

/-- Everything that running code can change. -/
structure State where
  store : Store
  symbols : Symbols
  counter : Int64
  bindings : Bindings

/-- Why a run ended early. -/
inductive Halt where
  | fault (fault : Fault)
  /-- A loop was not allowed another round. -/
  | outOfRounds
  deriving DecidableEq, Repr

/-- A run. It has a state also where it ends early. -/
abbrev Exec := ExceptT Halt (StateM State)

/-- How a statement or an operation ended. -/
inductive Flow where
  | proceed
  | exit
  | answer (row : Row)
  deriving DecidableEq, Repr

def raise {α : Type} (fault : Fault) : Exec α :=
  throw (.fault fault)

def bindRow (tuple : Nat) (row : Row) : Exec Unit :=
  modify fun state => { state with bindings := state.bindings.set tuple row }

/-- The rows of a relation at this point of the run. -/
def rowsOf (relation : String) : Exec (List Row) := do
  return ((← get).store.rows relation).toList

/-- The value in a column of a bound row. -/
def elementOf (tuple column : Nat) : Exec Int64 := do
  match (← get).bindings.lookup tuple with
  | none => raise (.unboundTuple tuple)
  | some row =>
      match row[column]? with
      | none => raise (.missingColumn tuple column)
      | some value => return value

/-- The counter, which then moves on. -/
def nextCount : Exec Int64 := do
  let state ← get
  set { state with counter := state.counter + 1 }
  return state.counter

def runOperator (op : Operator) (values : List Int64) : Exec Int64 := do
  let state ← get
  match applyOperator state.symbols op values with
  | .error fault => raise fault
  | .ok (value, symbols) =>
      set { state with symbols := symbols }
      return value

mutual

/-- The value of an expression, given the arguments of the subroutine. -/
def evalExpr (args : Row) : Expr → Exec Int64
  | .signed value => return value
  | .unsigned value => return value.toInt64
  | .float value => return value.bits.toInt64
  | .element tuple column => elementOf tuple column
  | .argument index =>
      match args[index]? with
      | none => raise (.unknownArgument index)
      | some value => return value
  | .undefined => raise .undefinedValue
  | .operator op operands => do runOperator op (← evalExprs args operands)
  | .external name _ => raise (.externalFunctor name)
  | .pack _ => raise .record
  | .autoIncrement => nextCount

/-- The values of expressions, from left to right. -/
def evalExprs (args : Row) : List Expr → Exec (List Int64)
  | [] => return []
  | expr :: exprs => do
      let value ← evalExpr args expr
      return value :: (← evalExprs args exprs)

end

/-- What an existence check asks for: an undefined value asks for nothing. -/
def evalPattern (args : Row) : List Expr → Exec (List (Option Int64))
  | [] => return []
  | expr :: exprs => do
      let wanted ← if expr.isUndefined then pure none else some <$> evalExpr args expr
      return wanted :: (← evalPattern args exprs)

/-- The truth of a condition. Of two joined conditions the right one is tested only if the left one holds. -/
def evalCond (args : Row) : Cond → Exec Bool
  | .true => return true
  | .false => return false
  | .both left right => do if ← evalCond args left then evalCond args right else return false
  | .not condition => do return !(← evalCond args condition)
  | .compare op left right => do
      let left ← evalExpr args left
      let right ← evalExpr args right
      return op.holds left right
  | .holds relation values => do
      let pattern ← evalPattern args values
      return ((← get).store.rows relation).anyFits pattern
  | .isEmpty relation => do return ((← get).store.rows relation).isEmpty

/-- Bind rows one after another and run `body` on each, until it answers. -/
def forRows (tuple : Nat) (body : Exec Flow) : List Row → Exec Flow
  | [] => return .proceed
  | row :: rows => do
      bindRow tuple row
      match ← body with
      | .answer result => return .answer result
      | _ => forRows tuple body rows

/-- Bind rows one after another and list the values of those that satisfy a condition. -/
def collectValues (tuple : Nat) (condition : Exec Bool) (value : Exec Int64) :
    List Row → Exec (List Int64)
  | [] => return []
  | row :: rows => do
      bindRow tuple row
      if ← condition then
        let first ← value
        return first :: (← collectValues tuple condition value rows)
      else collectValues tuple condition value rows

/-- What an aggregate folds: without an expression only the number of rows counts. -/
def evalFolded (args : Row) : Option Expr → Exec Int64
  | none => return 0
  | some expr => evalExpr args expr

/-- Run an operation. The rows of a scan or an aggregate are those at its start. -/
def runOp (args : Row) : Op → Exec Flow
  | .scan relation tuple nested => do forRows tuple (runOp args nested) (← rowsOf relation)
  | .filter condition nested => do
      if ← evalCond args condition then runOp args nested else return .proceed
  | .aggregate relation tuple function value condition nested => do
      let values ← collectValues tuple (evalCond args condition) (evalFolded args value) (← rowsOf relation)
      match function.fold values with
      | none => return .proceed
      | some result =>
          bindRow tuple [result]
          runOp args nested
  | .insert relation values => do
      let row ← evalExprs args values
      modify fun state => { state with store := state.store.insert relation row }
      return .proceed
  | .answer values => return .answer (← evalExprs args values)

/-- Repeat a body until it exits or answers, for at most `rounds` rounds. -/
def repeatBody (body : Exec Flow) : Nat → Exec Flow
  | 0 => throw .outOfRounds
  | rounds + 1 => do
      match ← body with
      | .proceed => repeatBody body rounds
      | .exit => return .proceed
      | .answer row => return .answer row

def modifyStore (change : Store → Store) : Exec Flow := do
  modify fun state => { state with store := change state.store }
  return .proceed

mutual

/-- Run a statement. Each of its loops may make `rounds` rounds. -/
def runStmt (rounds : Nat) (args : Row) : Stmt → Exec Flow
  | .sequence statements => runStmts rounds args statements
  | .query operation => runOp args operation
  | .loop body => repeatBody (runStmt rounds args body) rounds
  | .exit condition => do return if ← evalCond args condition then .exit else .proceed
  | .clear relation => modifyStore (·.clear relation)
  | .swap left right => modifyStore (·.swap left right)
  | .merge source target => modifyStore (·.merge source target)
  | .debug _ statement => runStmt rounds args statement

/-- Run statements one after another until one of them does not just proceed. -/
def runStmts (rounds : Nat) (args : Row) : List Stmt → Exec Flow
  | [] => return .proceed
  | statement :: statements => do
      match ← runStmt rounds args statement with
      | .proceed => runStmts rounds args statements
      | flow => return flow

end

/-- The state in which a program starts: the store is given, the symbols are those of the program. -/
def State.start (program : Ram.Program) (store : Store) : State where
  store := store
  symbols := program.symbols
  counter := 0
  bindings := []

/-- Forget the rows that an earlier run has bound. -/
def forgetBindings : Exec Unit :=
  modify fun state => { state with bindings := [] }

/-- Run the main statement of a program. -/
def runMain (program : Ram.Program) (rounds : Nat) : Exec Unit := do
  forgetBindings
  let _ ← runStmt rounds [] program.main.tree

/-- Call a subroutine. The first answer ends the call; there is none if the body comes to its end. -/
def callSubroutine (program : Ram.Program) (rounds : Nat) (name : String) (args : Row) :
    Exec (Option Row) := do
  match program.subroutine? name with
  | none => raise (.unknownSubroutine name)
  | some subroutine =>
      if args.length = subroutine.parameters.length then
        forgetBindings
        match ← runStmt rounds args subroutine.body.tree with
        | .answer row => return some row
        | _ => return none
      else raise (.argumentCount name subroutine.parameters.length args.length)

end DatalogRam.Machine
