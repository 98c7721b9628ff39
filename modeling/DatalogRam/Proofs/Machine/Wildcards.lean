import DatalogRam.Proofs.Machine.Run
import DatalogRam.Proofs.Ram.Uses

/-!
# Wildcards have no value

Evaluating a wildcard is a fault. An existence check does not evaluate the wildcards among its values, so code in which
they stand nowhere else never raises this fault, whatever the store, the arguments and the bound rows are.
-/

namespace DatalogRam.Machine

open Ram

variable {α β : Type}

/-- No run of the code ends in the given way. -/
def Avoids (halt : Halt) (code : Exec α) : Prop :=
  ∀ state, (code.run.run state).1 ≠ .error halt

namespace Avoids

variable {halt : Halt}

theorem pure (a : α) : Avoids halt (pure a : Exec α) :=
  fun _ same => nomatch same

theorem throw {other : Halt} (different : other ≠ halt) : Avoids halt (throw other : Exec α) :=
  fun _ same => different (Except.error.inj same)

theorem modify (change : State → State) : Avoids halt (modify change : Exec Unit) :=
  fun _ same => nomatch same

theorem get : Avoids halt (get : Exec State) :=
  fun _ same => nomatch same

theorem set (state : State) : Avoids halt (set state : Exec Unit) :=
  fun _ same => nomatch same

theorem bind {code : Exec α} {next : α → Exec β} (first : Avoids halt code) (second : ∀ a, Avoids halt (next a)) :
    Avoids halt (code >>= next) := by
  intro state
  have notFirst := first state
  rw [run_bind]
  cases ran : code.run.run state with
  | mk result middle =>
      rw [ran] at notFirst
      cases result with
      | ok a => exact second a middle
      | error other => exact fun same => notFirst (congrArg Except.error (Except.error.inj same))

theorem map {code : Exec α} (avoids : Avoids halt code) (f : α → β) : Avoids halt (f <$> code) := by
  rw [← bind_pure_comp]
  exact avoids.bind fun a => pure (f a)

/-- Repeating code avoids what the code avoids, unless it is to run out of rounds. -/
theorem repeatBody {body : Exec Flow} (different : .outOfRounds ≠ halt) (avoids : Avoids halt body) (rounds : Nat) :
    Avoids halt (repeatBody body rounds) := by
  induction rounds with
  | zero => exact throw different
  | succ rounds ih =>
      apply avoids.bind
      intro flow
      cases flow with
      | proceed => exact ih
      | exit => exact pure _
      | answer row => exact pure _

theorem forRows {body : Exec Flow} (avoids : Avoids halt body) (tuple : Nat) (rows : List Row) :
    Avoids halt (forRows tuple body rows) := by
  induction rows with
  | nil => exact pure _
  | cons row rows ih =>
      apply (modify _).bind
      intro _
      apply avoids.bind
      intro flow
      cases flow with
      | answer result => exact pure _
      | proceed => exact ih
      | exit => exact ih

theorem collectValues {condition : Exec Bool} {value : Exec Int64} (tests : Avoids halt condition)
    (folds : Avoids halt value) (tuple : Nat) (rows : List Row) :
    Avoids halt (collectValues tuple condition value rows) := by
  induction rows with
  | nil => exact pure _
  | cons row rows ih =>
      apply (modify _).bind
      intro _
      apply tests.bind
      intro answer
      cases answer with
      | true => exact folds.bind fun first => ih.bind fun others => pure _
      | false => exact ih

end Avoids

/-! ## Operators -/

theorem joinedTexts_ne (symbols : Symbols) (ordinals : List Int64) :
    joinedTexts symbols ordinals ≠ .error .undefinedValue := by
  induction ordinals with
  | nil => simp [joinedTexts]
  | cons ordinal ordinals ih =>
      rw [joinedTexts]
      cases symbols.decode? ordinal with
      | none => simp
      | some text =>
          cases joined : joinedTexts symbols ordinals with
          | ok texts => simp
          | error fault =>
              rw [joined] at ih
              simpa using ih

theorem applyBinary_ne (op : Operator) {combine : Int64 → Int64 → Except Fault Int64}
    (combines : ∀ left right, combine left right ≠ .error .undefinedValue) (values : List Int64) :
    applyBinary op combine values ≠ .error .undefinedValue := by
  unfold applyBinary
  split
  · exact combines _ _
  · simp

theorem applyWords_ne (op : Operator) (fold : List Int64 → Option Int64) (values : List Int64) :
    applyWords op fold values ≠ .error .undefinedValue := by
  unfold applyWords
  split <;> simp

theorem map_ne {f : α → β} {result : Except Fault α} (different : result ≠ .error .undefinedValue) :
    result.map f ≠ .error .undefinedValue := by
  cases result with
  | ok a => simp [Except.map]
  | error fault => simpa [Except.map] using different

/-- No operator fails because of a wildcard. -/
theorem applyOperator_ne (symbols : Symbols) (op : Operator) (values : List Int64) :
    applyOperator symbols op values ≠ .error .undefinedValue := by
  cases op with
  | add | sub | mul => exact map_ne (applyBinary_ne _ (by simp) _)
  | div | mod =>
      apply map_ne
      apply applyBinary_ne
      intro left right
      split <;> simp
  | neg | max | min => exact map_ne (applyWords_ne _ _ _)
  | cat => exact map_ne (joinedTexts_ne _ _)
  | strlen =>
      cases values with
      | nil => simp [applyOperator]
      | cons ordinal rest =>
          simp only [applyOperator]
          split <;> simp

/-! ## Code -/

/-- The fault of evaluating a wildcard. -/
abbrev Halt.wildcard : Halt :=
  .fault .undefinedValue

variable {args : Row}

theorem avoids_raise {fault : Fault} (different : fault ≠ .undefinedValue) :
    Avoids .wildcard (raise fault : Exec α) :=
  .throw fun same => different (Halt.fault.inj same)

theorem avoids_elementOf (tuple column : Nat) : Avoids .wildcard (elementOf tuple column) := by
  apply Avoids.get.bind
  intro state
  split
  · exact avoids_raise (by simp)
  · split
    · exact avoids_raise (by simp)
    · exact .pure _

theorem avoids_runOperator (op : Operator) (values : List Int64) : Avoids .wildcard (runOperator op values) := by
  apply Avoids.get.bind
  intro state
  split
  · next fault failed =>
      exact avoids_raise fun same => applyOperator_ne state.symbols op values (same ▸ failed)
  · exact (Avoids.set _).bind fun _ => .pure _

mutual

/-- Evaluating an expression without wildcards does not raise their fault. -/
theorem avoids_evalExpr : ∀ {expr : Expr}, expr.IsDefined → Avoids .wildcard (evalExpr args expr)
  | .operator op operands, defined => (avoids_evalExprs defined).bind fun values => avoids_runOperator op values
  | .undefined, defined => absurd (defined .undefined (List.mem_singleton.2 rfl)) (by simp [Expr.isUndefined])
  | .element tuple column, _ => avoids_elementOf tuple column
  | .argument index, _ => by
      rw [evalExpr]
      split
      · exact avoids_raise (by simp)
      · exact .pure _
  | .external _ _, _ | .pack _, _ => avoids_raise (by simp)
  | .autoIncrement, _ => Avoids.get.bind fun _ => (Avoids.set _).bind fun _ => .pure _
  | .signed _, _ | .unsigned _, _ | .float _, _ => .pure _

theorem avoids_evalExprs : ∀ {exprs : List Expr}, (∀ leaf ∈ Expr.leavesOfAll exprs, leaf.isUndefined = false) →
    Avoids .wildcard (evalExprs args exprs)
  | [], _ => .pure _
  | _ :: _, defined =>
      (avoids_evalExpr fun leaf member => defined leaf (List.mem_append_left _ member)).bind fun _ =>
        (avoids_evalExprs fun leaf member => defined leaf (List.mem_append_right _ member)).bind fun _ => .pure _

end

theorem avoids_evalAll {exprs : List Expr} (defined : ∀ expr ∈ exprs, expr.IsDefined) :
    Avoids .wildcard (evalExprs args exprs) := by
  apply avoids_evalExprs
  intro leaf member
  obtain ⟨expr, isExpr, isLeaf⟩ := Expr.mem_leavesOfAll.1 member
  exact defined expr isExpr leaf isLeaf

theorem avoids_evalPattern {exprs : List Expr} (each : ∀ expr ∈ exprs, expr.isUndefined = true ∨ expr.IsDefined) :
    Avoids .wildcard (evalPattern args exprs) := by
  induction exprs with
  | nil => exact .pure _
  | cons expr exprs ih =>
      have others := ih fun other member => each other (List.mem_cons_of_mem _ member)
      rw [evalPattern]
      split
      · exact (Avoids.pure none).bind fun _ => others.bind fun _ => .pure _
      · next notUndefined =>
          have defined := (each expr List.mem_cons_self).resolve_left notUndefined
          exact ((avoids_evalExpr defined).map some).bind fun _ => others.bind fun _ => .pure _

theorem avoids_evalCond {condition : Cond} (asks : condition.Uses Use.AsksOnly) :
    Avoids .wildcard (evalCond args condition) := by
  induction condition with
  | both left right leftAvoids rightAvoids =>
      apply (leftAvoids fun use member => asks use (List.mem_append_left _ member)).bind
      intro answer
      cases answer with
      | true => exact rightAvoids fun use member => asks use (List.mem_append_right _ member)
      | false => exact .pure _
  | not condition avoids => exact (avoids asks).bind fun _ => .pure _
  | compare op left right =>
      have leftDefined := asks (.value left) (by simp [Cond.uses]) left (List.mem_singleton.2 rfl)
      have rightDefined := asks (.value right) (by simp [Cond.uses]) right (List.mem_singleton.2 rfl)
      exact (avoids_evalExpr leftDefined).bind fun _ => (avoids_evalExpr rightDefined).bind fun _ => .pure _
  | holds relation values =>
      have each := asks (.check relation values) (List.mem_singleton.2 rfl)
      exact (avoids_evalPattern each).bind fun _ => Avoids.get.bind fun _ => .pure _
  | isEmpty relation => exact Avoids.get.bind fun _ => .pure _
  | true | false => exact .pure _

theorem avoids_runOp {operation : Op} {scans : Scans} (asks : ∀ entry ∈ operation.uses scans, entry.2.AsksOnly) :
    Avoids .wildcard (runOp args operation) := by
  induction operation generalizing scans with
  | scan relation tuple nested avoids =>
      apply (Avoids.get.bind fun _ => .pure _).bind
      intro rows
      exact (avoids fun entry member => asks entry (List.mem_cons_of_mem _ member)).forRows tuple rows
  | filter condition nested avoids =>
      have tests : condition.Uses Use.AsksOnly := fun use member =>
        asks (scans, use) (List.mem_append_left _ (List.mem_map_of_mem member))
      apply (avoids_evalCond tests).bind
      intro answer
      cases answer with
      | true => exact avoids fun entry member => asks entry (List.mem_append_right _ member)
      | false => exact .pure _
  | aggregate relation tuple function value condition nested avoids =>
      have own : ∀ use ∈ value.toList.map Use.value ++ condition.uses, use.AsksOnly := fun use member =>
        asks (scans, use) (List.mem_append_left _ (List.mem_map_of_mem (List.mem_cons_of_mem _ member)))
      have tests : condition.Uses Use.AsksOnly := fun use member => own use (List.mem_append_right _ member)
      have folds : Avoids .wildcard (evalFolded args value) := by
        cases value with
        | none => exact .pure _
        | some expr => exact avoids_evalExpr (own (.value expr) List.mem_cons_self expr (List.mem_singleton.2 rfl))
      apply (Avoids.get.bind fun _ => .pure _).bind
      intro rows
      apply ((avoids_evalCond tests).collectValues folds tuple rows).bind
      intro values
      split
      · exact .pure _
      · apply (Avoids.modify _).bind
        intro _
        exact avoids fun entry member => asks entry (List.mem_append_right _ member)
  | insert relation values =>
      have each := asks (scans, .insert relation values) (List.mem_singleton.2 rfl)
      exact (avoids_evalAll each).bind fun _ => (Avoids.modify _).bind fun _ => .pure _
  | answer values =>
      have each := asks (scans, .answer values) (List.mem_singleton.2 rfl)
      exact (avoids_evalAll each).bind fun _ => .pure _

mutual

/-- Statements whose wildcards stand in existence checks only do not raise their fault. -/
theorem avoids_runStmt (rounds : Nat) : ∀ {statement : Stmt}, (statement.Uses fun _ use => use.AsksOnly) →
    Avoids .wildcard (runStmt rounds args statement)
  | .sequence _, asks => avoids_runStmts rounds asks
  | .query _, asks => avoids_runOp asks
  | .loop body, asks => (@avoids_runStmt rounds body asks).repeatBody (by simp) rounds
  | .exit _, asks =>
      (avoids_evalCond fun _ member => asks _ (List.mem_map_of_mem member)).bind fun _ => .pure _
  | .debug _ statement, asks => @avoids_runStmt rounds statement asks
  | .clear _, _ | .swap _ _, _ | .merge _ _, _ => (Avoids.modify _).bind fun _ => .pure _

theorem avoids_runStmts (rounds : Nat) : ∀ {statements : List Stmt},
    (∀ entry ∈ Stmt.usesOfAll statements, entry.2.AsksOnly) → Avoids .wildcard (runStmts rounds args statements)
  | [], _ => .pure _
  | _ :: _, asks => by
      rw [runStmts]
      apply (avoids_runStmt rounds fun entry member => asks entry (List.mem_append_left _ member)).bind
      intro flow
      cases flow with
      | proceed => exact avoids_runStmts rounds fun entry member => asks entry (List.mem_append_right _ member)
      | exit => exact .pure _
      | answer row => exact .pure _

end

variable {program : Ram.Program}

theorem avoids_runMain (asks : program.main.tree.Uses fun _ use => use.AsksOnly) (rounds : Nat) :
    Avoids .wildcard (runMain program rounds) := by
  apply (Avoids.modify _).bind
  intro _
  exact (avoids_runStmt rounds asks).bind fun _ => .pure _

theorem avoids_callSubroutine {name : String}
    (asks : ∀ subroutine, program.subroutine? name = some subroutine →
      subroutine.body.tree.Uses fun _ use => use.AsksOnly)
    (rounds : Nat) (args : Row) : Avoids .wildcard (callSubroutine program rounds name args) := by
  unfold callSubroutine
  split
  · exact avoids_raise (by simp)
  · next subroutine found =>
      split
      · apply (Avoids.modify _).bind
        intro _
        apply (avoids_runStmt rounds (asks subroutine found)).bind
        intro flow
        cases flow with
        | answer row => exact .pure _
        | proceed => exact .pure _
        | exit => exact .pure _
      · exact avoids_raise (by simp)

end DatalogRam.Machine
