import DatalogRam.Machine.Execution

/-!
# Statements without texts

A statement may be wrapped in a statement that only carries a text. `Stmt.unwrapped` removes these wrappers
wherever they are, and a run does not see the difference.
-/

namespace DatalogRam.Ram

mutual

/-- The statement without any text. -/
def Stmt.unwrapped : Stmt → Stmt
  | .sequence statements => .sequence (Stmt.unwrappedAll statements)
  | .query operation => .query operation
  | .loop body => .loop body.unwrapped
  | .exit condition => .exit condition
  | .clear relation => .clear relation
  | .swap left right => .swap left right
  | .merge source target => .merge source target
  | .debug _ statement => statement.unwrapped

def Stmt.unwrappedAll : List Stmt → List Stmt
  | [] => []
  | statement :: statements => statement.unwrapped :: Stmt.unwrappedAll statements

end

end DatalogRam.Ram

namespace DatalogRam.Machine

open Ram

mutual

theorem runStmt_unwrapped (rounds : Nat) (args : Row) :
    ∀ statement : Stmt, runStmt rounds args statement.unwrapped = runStmt rounds args statement
  | .sequence statements => by
      rw [Stmt.unwrapped, runStmt, runStmt, runStmts_unwrappedAll rounds args statements]
  | .loop body => by rw [Stmt.unwrapped, runStmt, runStmt, runStmt_unwrapped rounds args body]
  | .debug _ statement => by rw [Stmt.unwrapped, runStmt, runStmt_unwrapped rounds args statement]
  | .query _ => rfl
  | .exit _ => rfl
  | .clear _ => rfl
  | .swap _ _ => rfl
  | .merge _ _ => rfl

theorem runStmts_unwrappedAll (rounds : Nat) (args : Row) :
    ∀ statements : List Stmt, runStmts rounds args (Stmt.unwrappedAll statements) = runStmts rounds args statements
  | [] => rfl
  | statement :: statements => by
      rw [Stmt.unwrappedAll, runStmts, runStmts, runStmt_unwrapped rounds args statement,
        runStmts_unwrappedAll rounds args statements]

end

end DatalogRam.Machine
