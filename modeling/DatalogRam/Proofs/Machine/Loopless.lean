import DatalogRam.Proofs.Iterations
import DatalogRam.Proofs.Machine.Stopping
import DatalogRam.Proofs.Machine.Wildcards

/-!
# Code without loops

Only loops run out of rounds. Expressions, conditions and operations have none, and neither has a statement whose
parts are not loops: it stops, with a result or with a fault, and does the same for any number of rounds.
-/

namespace DatalogRam.Machine

open Ram

variable {α : Type} {args : Row}

namespace Avoids

theorem raise (fault : Fault) : Avoids .outOfRounds (raise fault : Exec α) :=
  throw nofun

/-! ## Evaluation -/

theorem elementOf (tuple column : Nat) : Avoids .outOfRounds (elementOf tuple column) := by
  apply get.bind
  intro state
  split
  · exact raise _
  · split
    · exact raise _
    · exact pure _

theorem runOperator (op : Operator) (values : List Int64) : Avoids .outOfRounds (runOperator op values) := by
  apply get.bind
  intro state
  split
  · exact raise _
  · exact (set _).bind fun _ => pure _

mutual

theorem evalExpr : ∀ expr : Expr, Avoids .outOfRounds (evalExpr args expr)
  | .signed _ | .unsigned _ | .float _ => pure _
  | .element tuple column => elementOf tuple column
  | .argument index => by
      rw [Machine.evalExpr]
      split
      · exact raise _
      · exact pure _
  | .undefined | .external .. | .pack _ => raise _
  | .operator op operands => (evalExprs operands).bind fun values => runOperator op values
  | .autoIncrement => get.bind fun _ => (set _).bind fun _ => pure _

theorem evalExprs : ∀ exprs : List Expr, Avoids .outOfRounds (evalExprs args exprs)
  | [] => pure _
  | expr :: exprs => (evalExpr expr).bind fun _ => (evalExprs exprs).bind fun _ => pure _

end

theorem evalPattern (exprs : List Expr) : Avoids .outOfRounds (evalPattern args exprs) := by
  induction exprs with
  | nil => exact pure _
  | cons expr exprs ih =>
      rw [Machine.evalPattern]
      split
      · exact (pure none).bind fun _ => ih.bind fun _ => pure _
      · exact ((evalExpr expr).map some).bind fun _ => ih.bind fun _ => pure _

theorem evalCond (condition : Cond) : Avoids .outOfRounds (evalCond args condition) := by
  induction condition with
  | true | false => exact pure _
  | both left right leftAvoids rightAvoids =>
      apply leftAvoids.bind
      intro holds
      cases holds with
      | true => exact rightAvoids
      | false => exact pure _
  | not condition avoids => exact avoids.bind fun _ => pure _
  | compare op left right => exact (evalExpr left).bind fun _ => (evalExpr right).bind fun _ => pure _
  | holds relation values => exact (evalPattern values).bind fun _ => get.bind fun _ => pure _
  | isEmpty relation => exact get.bind fun _ => pure _

theorem evalFolded (value : Option Expr) : Avoids .outOfRounds (evalFolded args value) := by
  cases value with
  | none => exact pure _
  | some expr => exact evalExpr expr

theorem rowsOf (relation : String) : Avoids .outOfRounds (rowsOf relation) :=
  get.bind fun _ => pure _

/-! ## Statements -/

theorem runOp (operation : Op) : Avoids .outOfRounds (runOp args operation) := by
  induction operation with
  | scan relation tuple nested avoids => exact (rowsOf relation).bind fun rows => avoids.forRows tuple rows
  | filter condition nested avoids =>
      apply (evalCond condition).bind
      intro holds
      cases holds with
      | true => exact avoids
      | false => exact pure _
  | aggregate relation tuple function value condition nested avoids =>
      apply (rowsOf relation).bind
      intro rows
      apply ((evalCond condition).collectValues (evalFolded value) tuple rows).bind
      intro values
      split
      · exact pure _
      · exact (modify _).bind fun _ => avoids
  | insert relation values => exact (evalExprs values).bind fun _ => (modify _).bind fun _ => pure _
  | answer values => exact (evalExprs values).bind fun _ => pure _

mutual

/-- A statement without loops does not run out of rounds. -/
theorem runStmt (rounds : Nat) : ∀ {statement : Stmt}, statement.loops = [] →
    Avoids .outOfRounds (runStmt rounds args statement)
  | .sequence _, loopless => runStmts rounds loopless
  | .query operation, _ => runOp operation
  | .loop _, loopless => nomatch loopless
  | .exit condition, _ => (evalCond condition).bind fun _ => pure _
  | .debug _ statement, loopless => @runStmt rounds statement loopless
  | .clear _, _ | .swap _ _, _ | .merge _ _, _ => (modify _).bind fun _ => pure _

theorem runStmts (rounds : Nat) : ∀ {statements : List Stmt}, Stmt.loopsOfAll statements = [] →
    Avoids .outOfRounds (runStmts rounds args statements)
  | [], _ => pure _
  | statement :: statements, loopless => by
      obtain ⟨first, rest⟩ := List.append_eq_nil_iff.1 loopless
      rw [Machine.runStmts]
      apply (runStmt rounds first).bind
      intro flow
      cases flow with
      | proceed => exact runStmts rounds rest
      | exit | answer => exact pure _

end

end Avoids

/-! ## Calls -/

variable {program : Ram.Program} {name : String}

/-- How a call goes on when the body of the subroutine has run. -/
theorem callSubroutine_eq {subroutine : Subroutine} (found : program.subroutine? name = some subroutine)
    (count : args.length = subroutine.parameters.length) (rounds : Nat) :
    callSubroutine program rounds name args = do
      forgetBindings
      let flow ← runStmt rounds args subroutine.body.tree
      return flow.answer? := by
  simp only [callSubroutine, found, if_pos count]
  refine bind_congr fun _ => bind_congr fun flow => ?_
  cases flow <;> rfl

/-- A call that does not come to run a subroutine fails at once. -/
theorem callSubroutine_refused
    (refused : ∀ subroutine, program.subroutine? name = some subroutine → args.length ≠ subroutine.parameters.length) :
    ∃ fault, ∀ rounds, callSubroutine program rounds name args = raise fault := by
  cases found : program.subroutine? name with
  | none => exact ⟨.unknownSubroutine name, fun rounds => by simp only [callSubroutine, found]⟩
  | some subroutine =>
      refine ⟨.argumentCount name subroutine.parameters.length args.length, fun rounds => ?_⟩
      simp only [callSubroutine, found, if_neg (refused subroutine found)]

/-- The run stops in the same way for any number of rounds, and leaves the store as it was. -/
def StopsInPlace (code : Nat → Exec α) (state : State) : Prop :=
  ∃ (result : Except Fault α) (final : State),
    (∀ rounds, (code rounds).run.run state = (result.mapError .fault, final)) ∧ final.store = state.store

/-- A statement that has no loops and may not change the store. -/
structure OnlyLooks (statement : Stmt) : Prop where
  loopless : statement.loops = []
  unchanging : Allows (fun _ => False) statement

namespace OnlyLooks

variable {statement : Stmt}

theorem leavesStore (onlyLooks : OnlyLooks statement) (rounds : Nat) : LeavesStore (runStmt rounds args statement) := by
  have logs (state : State) := @Logs.runStmt args _ rounds statement onlyLooks.unchanging state []
  constructor <;> intro state <;> obtain ⟨changes, areAllowed, isStore, extends', _⟩ := logs state
  · have noChange : changes = [] := List.eq_nil_iff_forall_not_mem.2 areAllowed
    rw [isStore, noChange]
    rfl
  · exact extends'

theorem stops (onlyLooks : OnlyLooks statement) (args : Row) (state : State) :
    StopsInPlace (runStmt · args statement) state := by
  have never (rounds : Nat) : Avoids .outOfRounds (runStmt rounds args statement) := .runStmt rounds onlyLooks.loopless
  have isStore : ((runStmt 0 args statement).run.run state).2.store = state.store :=
    (onlyLooks.leavesStore 0).store state
  obtain ⟨result, isResult⟩ := exists_mapError_fault (never 0 state)
  refine ⟨result, ((runStmt 0 args statement).run.run state).2, fun rounds => ?_, isStore⟩
  have same := GoesOn.runStmt (Nat.zero_le rounds) args statement state (never 0 state)
  exact same.trans (Prod.ext isResult rfl)

/-- A call of a subroutine whose body only looks, or one with a wrong name or a wrong number of arguments. -/
theorem call_stops (each : ∀ subroutine, program.subroutine? name = some subroutine → OnlyLooks subroutine.body.tree)
    (args : Row) (state : State) : StopsInPlace (callSubroutine program · name args) state := by
  by_cases called : ∃ subroutine, program.subroutine? name = some subroutine ∧
    args.length = subroutine.parameters.length
  · obtain ⟨subroutine, found, count⟩ := called
    obtain ⟨result, final, ran, isStore⟩ := (each subroutine found).stops args { state with bindings := [] }
    refine ⟨result.map Flow.answer?, final, fun rounds => ?_, isStore⟩
    beta_reduce at ran ⊢
    rw [callSubroutine_eq found count]
    change (runStmt rounds args subroutine.body.tree >>= _).run.run { state with bindings := [] } = _
    rw [run_bind, ran]
    cases result <;> rfl
  · obtain ⟨fault, refused⟩ := callSubroutine_refused fun subroutine found count => called ⟨subroutine, found, count⟩
    refine ⟨.error fault, state, fun rounds => ?_, rfl⟩
    beta_reduce
    rw [refused]
    rfl

end OnlyLooks

end DatalogRam.Machine
