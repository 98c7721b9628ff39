import DatalogRam.Proofs.Lowering.SideBySide
import DatalogRam.Proofs.Machine.Stopping
import DatalogRam.Proofs.Ram.Scope

/-!
# Rows that are still bound

A row stays bound when the operation that has bound it is done, so code runs among rows that are nothing to it. Code
depends on the rows of its free reads and on no other ones: a scan or an aggregate binds its row before anything
below it is run. Scoped code therefore cannot tell two states apart that only differ in their bound rows.
-/

namespace DatalogRam.Machine

open Ram Lowering

/-- States that differ at most in the rows bound to numbers that are not seen. -/
structure AgreeOn (seen : Nat → Prop) (state other : State) : Prop where
  store : state.store = other.store
  symbols : state.symbols = other.symbols
  counter : state.counter = other.counter
  rows : ∀ tuple, seen tuple → state.bindings.lookup tuple = other.bindings.lookup tuple

/-- States that differ at most in their bound rows. -/
abbrev State.SameData : State → State → Prop :=
  AgreeOn fun _ => False

namespace AgreeOn

variable {seen fewer : Nat → Prop} {state other : State}

theorem symm (agree : AgreeOn seen state other) : AgreeOn seen other state where
  store := agree.store.symm
  symbols := agree.symbols.symm
  counter := agree.counter.symm
  rows := fun tuple isSeen => (agree.rows tuple isSeen).symm

theorem mono (agree : AgreeOn seen state other) (less : ∀ tuple, fewer tuple → seen tuple) :
    AgreeOn fewer state other :=
  { agree with rows := fun tuple isSeen => agree.rows tuple (less tuple isSeen) }

/-- After a row is bound in both states, it may be seen. -/
theorem bind (agree : AgreeOn seen state other) (tuple : Nat) (row : Row) :
    AgreeOn (fun number => number = tuple ∨ seen number) { state with bindings := state.bindings.set tuple row }
      { other with bindings := other.bindings.set tuple row } where
  store := agree.store
  symbols := agree.symbols
  counter := agree.counter
  rows := by
    intro number isSeen
    rw [Bindings.lookup_set, Bindings.lookup_set]
    split
    · rfl
    · next different => exact agree.rows number (isSeen.resolve_left different)

end AgreeOn

/-! ## Dependence -/

/-- What the code does depends on no other bound rows than those with the given numbers. -/
def DependsOn {α : Type} (tuples : List Nat) (code : Exec α) : Prop :=
  ∀ seen : Nat → Prop, (∀ tuple ∈ tuples, seen tuple) → Blind (AgreeOn seen) code

variable {α β : Type} {tuples more : List Nat}

namespace DependsOn

theorem pure (a : α) : DependsOn tuples (pure a : Exec α) :=
  fun _ _ => Blind.pure a

theorem throw (halt : Halt) : DependsOn tuples (throw halt : Exec α) :=
  fun _ _ => Blind.throw halt

theorem mono {code : Exec α} (depends : DependsOn tuples code) (among : tuples ⊆ more) : DependsOn more code :=
  fun seen covers => depends seen fun tuple member => covers tuple (among member)

theorem bind {code : Exec α} {next : α → Exec β} (first : DependsOn tuples code)
    (second : ∀ a, DependsOn tuples (next a)) : DependsOn tuples (code >>= next) :=
  fun seen covers => (first seen covers).bind fun a => second a seen covers

theorem append {code : Exec α} {next : α → Exec β} (first : DependsOn tuples code)
    (second : ∀ a, DependsOn more (next a)) : DependsOn (tuples ++ more) (code >>= next) :=
  (first.mono (List.subset_append_left tuples more)).bind fun a =>
    (second a).mono (List.subset_append_right tuples more)

/-- Code that looks at no bound row, only at what states with the same data share. -/
theorem ofState {code : State → Exec α} (same : ∀ state other, state.SameData other → code state = code other)
    (each : ∀ state, DependsOn tuples (code state)) : DependsOn tuples (get >>= code) := by
  intro seen covers
  apply SideBySide.bind SideBySide.get
  intro state other agree
  rw [same state other (agree.mono fun _ => False.elim)]
  exact each other seen covers

theorem modify {change : State → State}
    (keeps : ∀ seen state other, AgreeOn seen state other → AgreeOn seen (change state) (change other)) :
    DependsOn tuples (modify change : Exec Unit) :=
  fun seen _ state other agree => ⟨.ok rfl, keeps seen state other agree⟩

/-- A row that is bound before the code runs may be anything before. -/
theorem afterBinding {code : Exec α} (depends : DependsOn tuples code) (tuple : Nat) (row : Row) :
    DependsOn (tuples.filter (· ≠ tuple)) (bindRow tuple row >>= fun _ => code) := by
  intro seen covers state other agree
  have covered : ∀ number ∈ tuples, number = tuple ∨ seen number := by
    intro number member
    by_cases same : number = tuple
    · exact .inl same
    · exact .inr (covers number (List.mem_filter.2 ⟨member, decide_eq_true same⟩))
  obtain ⟨sameResult, agree⟩ := depends _ covered _ _ (agree.bind tuple row)
  exact ⟨sameResult, agree.mono fun _ => .inr⟩

theorem rowsOf (relation : String) : DependsOn tuples (rowsOf relation) :=
  ofState (fun _ _ same => by rw [same.store]) fun _ => pure _

theorem elementOf (tuple column : Nat) : DependsOn [tuple] (elementOf tuple column) := by
  intro seen covers
  apply SideBySide.bind SideBySide.get
  intro state other agree
  rw [agree.rows tuple (covers tuple List.mem_cons_self)]
  split
  · exact Blind.throw _
  · split
    · exact Blind.throw _
    · exact Blind.pure _

theorem nextCount : DependsOn tuples nextCount := by
  intro seen _ state other agree
  refine ⟨?_, ⟨agree.store, agree.symbols, congrArg (· + 1) agree.counter, agree.rows⟩⟩
  change Agreeing _ (.ok state.counter) (.ok other.counter)
  rw [agree.counter]
  exact .ok rfl

/-- An operator sees the symbols, and may add one. -/
theorem runOperator (op : Operator) (values : List Int64) : DependsOn tuples (runOperator op values) := by
  intro seen _ state other agree
  rw [Returns.run_runOperator, Returns.run_runOperator, agree.symbols]
  split
  · exact ⟨.error _, agree⟩
  · exact ⟨.ok rfl, ⟨agree.store, rfl, agree.counter, agree.rows⟩⟩

end DependsOn

/-! ## Evaluation -/

section Evaluation

variable {args : Row}

mutual

/-- The value of an expression depends on the rows that it reads. -/
theorem dependsOn_evalExpr : ∀ expr : Expr, DependsOn expr.tuples (evalExpr args expr)
  | .signed _ | .unsigned _ | .float _ => .pure _
  | .element tuple column => .elementOf tuple column
  | .argument index => by
      rw [evalExpr]
      split
      · exact .throw _
      · exact .pure _
  | .undefined | .external _ _ | .pack _ => .throw _
  | .operator op operands => (dependsOn_evalExprs operands).bind fun values => .runOperator op values
  | .autoIncrement => .nextCount

theorem dependsOn_evalExprs : ∀ exprs : List Expr, DependsOn (Expr.tuplesOfAll exprs) (evalExprs args exprs)
  | [] => .pure _
  | expr :: exprs =>
      (dependsOn_evalExpr expr).append fun _ => (dependsOn_evalExprs exprs).bind fun _ => .pure _

end

theorem dependsOn_evalPattern (exprs : List Expr) : DependsOn (Expr.tuplesOfAll exprs) (evalPattern args exprs) := by
  induction exprs with
  | nil => exact .pure _
  | cons expr exprs ih =>
      rw [evalPattern]
      split
      · exact (DependsOn.pure none).append fun _ => ih.bind fun _ => .pure _
      · rw [map_eq_pure_bind]
        exact ((dependsOn_evalExpr expr).bind fun _ => .pure _).append fun _ => ih.bind fun _ => .pure _

theorem dependsOn_evalCond (condition : Cond) : DependsOn condition.tuples (evalCond args condition) := by
  induction condition with
  | both left right leftDepends rightDepends =>
      rw [evalCond, Cond.tuples, Cond.exprs, Expr.tuplesOfAll_append]
      apply leftDepends.append
      intro holds
      cases holds with
      | true => exact rightDepends
      | false => exact .pure _
  | not condition depends => exact depends.bind fun _ => .pure _
  | compare op left right =>
      change DependsOn (left.tuples ++ (right.tuples ++ [])) _
      rw [List.append_nil]
      exact (dependsOn_evalExpr left).append fun _ => (dependsOn_evalExpr right).bind fun _ => .pure _
  | holds relation values =>
      apply (dependsOn_evalPattern values).bind
      intro pattern
      exact .ofState (fun _ _ same => by rw [same.store]) fun _ => .pure _
  | isEmpty relation => exact .ofState (fun _ _ same => by rw [same.store]) fun _ => .pure _
  | true | false => exact .pure _

theorem dependsOn_evalFolded (value : Option Expr) :
    DependsOn (Expr.tuplesOfAll value.toList) (evalFolded args value) := by
  cases value with
  | none => exact .pure _
  | some expr => exact (dependsOn_evalExpr expr).mono (List.subset_append_left _ _)

/-! ## Operations -/

theorem DependsOn.forRows {body : Exec Flow} (depends : DependsOn tuples body) (tuple : Nat) (rows : List Row) :
    DependsOn (tuples.filter (· ≠ tuple)) (forRows tuple body rows) := by
  induction rows with
  | nil => exact .pure _
  | cons row rows ih =>
      rw [Machine.forRows]
      apply DependsOn.afterBinding
      apply depends.bind
      intro flow
      cases flow with
      | answer result => exact .pure _
      | proceed | exit => exact ih.mono (List.filter_sublist.subset)

theorem DependsOn.collectValues {condition : Exec Bool} {value : Exec Int64} (tests : DependsOn tuples condition)
    (folds : DependsOn tuples value) (tuple : Nat) (rows : List Row) :
    DependsOn (tuples.filter (· ≠ tuple)) (collectValues tuple condition value rows) := by
  induction rows with
  | nil => exact .pure _
  | cons row rows ih =>
      have others : DependsOn tuples (Machine.collectValues tuple condition value rows) :=
        ih.mono (List.filter_sublist.subset)
      rw [Machine.collectValues]
      apply DependsOn.afterBinding
      apply tests.bind
      intro holds
      cases holds with
      | true => exact folds.bind fun _ => others.bind fun _ => .pure _
      | false => exact others

/-- An operation depends on the rows of its free reads. -/
theorem dependsOn_runOp (operation : Op) : DependsOn operation.free (runOp args operation) := by
  induction operation with
  | scan relation tuple nested depends => exact (DependsOn.rowsOf relation).bind fun rows => depends.forRows tuple rows
  | filter condition nested depends =>
      apply (dependsOn_evalCond condition).append
      intro holds
      cases holds with
      | true => exact depends
      | false => exact .pure _
  | aggregate relation tuple function value condition nested depends =>
      rw [Op.free]
      generalize isReads : Expr.tuplesOfAll value.toList ++ condition.tuples ++ nested.free = reads
      have tests : DependsOn reads (evalCond args condition) :=
        (dependsOn_evalCond condition).mono (by simp [← isReads])
      have folds : DependsOn reads (evalFolded args value) :=
        (dependsOn_evalFolded value).mono (by simp [← isReads])
      have nested : DependsOn reads (runOp args nested) := depends.mono (by simp [← isReads])
      apply (DependsOn.rowsOf relation).bind
      intro rows
      apply (tests.collectValues folds tuple rows).bind
      intro values
      split
      · exact .pure _
      · exact nested.afterBinding tuple _
  | insert relation values =>
      apply (dependsOn_evalExprs values).bind
      intro row
      apply DependsOn.bind _ fun _ => .pure _
      exact .modify fun _ _ _ agree => { agree with store := congrArg (·.insert relation row) agree.store }
  | answer values => exact (dependsOn_evalExprs values).bind fun _ => .pure _

/-! ## Statements -/

theorem DependsOn.repeatBody {body : Exec Flow} (depends : DependsOn tuples body) (rounds : Nat) :
    DependsOn tuples (repeatBody body rounds) := by
  induction rounds with
  | zero => exact .throw _
  | succ rounds ih =>
      apply depends.bind
      intro flow
      cases flow with
      | proceed => exact ih
      | exit | answer => exact .pure _

theorem DependsOn.modifyStore (change : Store → Store) : DependsOn tuples (modifyStore change) :=
  DependsOn.bind (.modify fun _ _ _ agree => { agree with store := congrArg change agree.store }) fun _ => .pure _

mutual

/-- A statement depends on the rows of its free reads, however many rounds its loops may make. -/
theorem dependsOn_runStmt (rounds : Nat) : ∀ statement : Stmt,
    DependsOn statement.free (runStmt rounds args statement)
  | .sequence statements => dependsOn_runStmts rounds statements
  | .query operation => dependsOn_runOp operation
  | .loop body => (dependsOn_runStmt rounds body).repeatBody rounds
  | .exit condition => (dependsOn_evalCond condition).bind fun _ => .pure _
  | .debug _ statement => dependsOn_runStmt rounds statement
  | .clear _ | .swap .. | .merge .. => .modifyStore _

theorem dependsOn_runStmts (rounds : Nat) : ∀ statements : List Stmt,
    DependsOn (Stmt.freeOfAll statements) (runStmts rounds args statements)
  | [] => .pure _
  | statement :: statements => by
      rw [runStmts, Stmt.freeOfAll]
      apply (dependsOn_runStmt rounds statement).append
      intro flow
      cases flow with
      | proceed => exact dependsOn_runStmts rounds statements
      | exit | answer => exact .pure _

end

end Evaluation

/-! ## Two executions -/

theorem eq_of_agreeing {ε : Type} {first second : Except ε α} (agreeing : Agreeing (· = ·) first second) :
    first = second := by
  cases agreeing with
  | ok same => rw [same]
  | error error => rfl

/-- Code that depends on no bound row stops in both states, in the same way. -/
theorem Stops.of_sameData {code : Nat → Exec α} (depends : ∀ rounds, DependsOn [] (code rounds))
    {state other final : State} {result : Except Fault α} (same : state.SameData other)
    (stops : Stops code state result final) :
    ∃ last, Stops code other result last ∧ final.SameData last := by
  obtain ⟨rounds, ran⟩ := stops
  obtain ⟨sameResult, sameFinal⟩ := depends rounds _ (fun _ member => absurd member List.not_mem_nil) state other same
  have sameResult := eq_of_agreeing sameResult
  rw [ran] at sameResult sameFinal
  exact ⟨((code rounds).run.run other).2, ⟨rounds, Prod.ext sameResult.symm rfl⟩, sameFinal⟩

/-- Scoped code stops in one state if and only if it stops in another one that differs from it in the bound rows alone.
It then stops in the same way, and the data that it leaves is the same. -/
theorem scoped_sees_no_stale_rows {statement : Stmt} (isScoped : statement.Scoped) (args : Row) {state other : State}
    (same : state.SameData other) :
    ((∃ result final, Stops (runStmt · args statement) state result final) ↔
        ∃ result final, Stops (runStmt · args statement) other result final) ∧
      ∀ result final result' final', Stops (runStmt · args statement) state result final →
        Stops (runStmt · args statement) other result' final' → result = result' ∧ final.SameData final' := by
  have depends (rounds : Nat) : DependsOn [] (runStmt rounds args statement) :=
    isScoped ▸ dependsOn_runStmt rounds statement
  refine ⟨⟨?_, ?_⟩, ?_⟩
  · intro ⟨result, final, stops⟩
    obtain ⟨last, stopsToo, _⟩ := stops.of_sameData depends same
    exact ⟨result, last, stopsToo⟩
  · intro ⟨result, final, stops⟩
    obtain ⟨last, stopsToo, _⟩ := stops.of_sameData depends same.symm
    exact ⟨result, last, stopsToo⟩
  · intro result final result' final' stops stopsToo
    obtain ⟨last, stopsSame, sameData⟩ := stops.of_sameData depends same
    obtain ⟨rfl, rfl⟩ := stopsSame.unique (fun enough => .runStmt enough args statement) stopsToo
    exact ⟨rfl, sameData⟩

/-- Empty a queue, after its largest number was counted among those that have been seen. -/
def drain : Stmt :=
  .sequence [
    .query (.scan "queue" 1 (.insert "seen" [.element 1 0])),
    .loop (.sequence [
      .exit (.isEmpty "queue"),
      .query (.aggregate "queue" 1 .max (some (.element 1 0)) (.compare .gt (.element 1 0) (.signed 0))
        (.scan "seen" 0 (.filter (.compare .eq (.element 0 0) (.element 1 0))
          (.insert "last" [.element 0 0, .autoIncrement])))),
      .clear "queue"])]

/-- A queue with two numbers, among rows that are still bound. -/
def queued (bindings : Bindings) : State where
  store := (Store.empty.insert "queue" [3]).insert "queue" [5]
  symbols := .empty
  counter := 0
  bindings := bindings

theorem scoped_sees_no_stale_rows_drain :
    drain.Scoped ∧ (queued []).SameData (queued [(0, []), (1, [8, 8])]) ∧
      (∃ result final, Stops (runStmt · [] drain) (queued [(0, []), (1, [8, 8])]) result final) ∧
      ∀ result final, Stops (runStmt · [] drain) (queued [(0, []), (1, [8, 8])]) result final →
        result = .ok .proceed ∧ final.counter = 1 := by
  have isScoped : drain.Scoped := by decide
  have same : (queued []).SameData (queued [(0, []), (1, [8, 8])]) := ⟨rfl, rfl, rfl, fun _ => False.elim⟩
  have stops : Stops (runStmt · [] drain) (queued []) (.ok .proceed) ((runStmt 2 [] drain).run.run (queued [])).2 := by
    refine ⟨2, Prod.ext ?_ rfl⟩
    decide +kernel
  have counted : ((runStmt 2 [] drain).run.run (queued [])).2.counter = 1 := by decide +kernel
  obtain ⟨iff, agree⟩ := scoped_sees_no_stale_rows isScoped [] same
  refine ⟨isScoped, same, iff.1 ⟨_, _, stops⟩, fun result final stopsToo => ?_⟩
  obtain ⟨sameResult, sameFinal⟩ := agree _ _ _ _ stops stopsToo
  exact ⟨sameResult.symm, sameFinal.counter ▸ counted⟩

end DatalogRam.Machine
