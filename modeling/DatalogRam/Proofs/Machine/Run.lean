import DatalogRam.Machine.Execution

/-!
# Runs that end well

`Returns code state a final` says that running `code` in `state` gives `a` and ends in `final`. A run is
deterministic, and a statement that ends within some number of rounds ends in the same way if it is allowed more.
-/

namespace DatalogRam

/-- A step that may fail hands its result and its state on to the next one. -/
theorem run_bind {ε σ α β : Type} (code : ExceptT ε (StateM σ) α) (next : α → ExceptT ε (StateM σ) β) (state : σ) :
    (code >>= next).run.run state =
      match code.run.run state with
      | (.ok a, after) => (next a).run.run after
      | (.error error, after) => (.error error, after) := by
  change ExceptT.bindCont next (code.run.run state).1 (code.run.run state).2 = _
  cases code.run.run state with
  | mk result after => cases result <;> rfl

namespace Machine

open Ram

variable {α β : Type}

/-- The code ends without a fault, with a result and a final state. -/
def Returns (code : Exec α) (state : State) (a : α) (final : State) : Prop :=
  code.run.run state = (.ok a, final)

namespace Returns

variable {state middle final other : State}

theorem pure (a : α) (state : State) : Returns (pure a) state a state := rfl

theorem bind {code : Exec α} {next : α → Exec β} {a : α} {b : β} (first : Returns code state a middle)
    (second : Returns (next a) middle b final) : Returns (code >>= next) state b final := by
  rw [Returns, run_bind, first]
  exact second

theorem of_bind {code : Exec α} {next : α → Exec β} {b : β} (returns : Returns (code >>= next) state b final) :
    ∃ a middle, Returns code state a middle ∧ Returns (next a) middle b final := by
  rw [Returns, run_bind] at returns
  cases ran : code.run.run state with
  | mk result middle =>
      rw [ran] at returns
      cases result with
      | ok a => exact ⟨a, middle, ran, returns⟩
      | error halt => cases returns

theorem unique {code : Exec α} {a a' : α} (first : Returns code state a final)
    (second : Returns code state a' other) : a = a' ∧ final = other := by
  have same : (Except.ok a, final) = ((Except.ok a', other) : Except Halt α × State) :=
    first.symm.trans second
  simpa using same

theorem eq_of_pure {a b : α} (returns : Returns (Pure.pure a) state b final) : b = a ∧ final = state :=
  unique returns (pure a state)

theorem not_throw {halt : Halt} {a : α} : ¬Returns (throw halt : Exec α) state a final := by
  intro returns
  cases returns

theorem modify (change : State → State) (state : State) :
    Returns (modify change : Exec Unit) state () (change state) := rfl

theorem bindRow (tuple : Nat) (row : Row) (state : State) :
    Returns (bindRow tuple row) state () { state with bindings := state.bindings.set tuple row } := rfl

theorem rowsOf (relation : String) (state : State) :
    Returns (rowsOf relation) state (state.store.rows relation).toList state := rfl

theorem modifyStore (change : Store → Store) (state : State) :
    Returns (modifyStore change) state .proceed { state with store := change state.store } := rfl

theorem run_elementOf (tuple column : Nat) (state : State) :
    (Machine.elementOf tuple column).run.run state =
      (match state.bindings.lookup tuple with
        | none => raise (.unboundTuple tuple)
        | some row =>
            match row[column]? with
            | none => raise (.missingColumn tuple column)
            | some value => Pure.pure value : Exec Int64).run.run state := rfl

theorem elementOf {tuple column : Nat} {row : Row} {value : Int64}
    (bound : state.bindings.lookup tuple = some row) (inRow : row[column]? = some value) :
    Returns (elementOf tuple column) state value state := by
  rw [Returns, run_elementOf]
  simp only [bound, inRow]
  rfl

theorem run_runOperator (op : Operator) (values : List Int64) (state : State) :
    (Machine.runOperator op values).run.run state =
      (match applyOperator state.symbols op values with
        | .error fault => raise fault
        | .ok (value, symbols) => do
            set { state with symbols := symbols }
            return value : Exec Int64).run.run state := rfl

theorem runOperator {op : Operator} {values : List Int64} {result : Int64}
    (applied : applyOperator state.symbols op values = .ok (result, state.symbols)) :
    Returns (runOperator op values) state result state := by
  rw [Returns, run_runOperator, applied]
  rfl

end Returns

section Rounds

/-- The longer run does what the shorter one does, unless that one runs out of rounds. -/
def GoesOn (shorter longer : Exec α) : Prop :=
  ∀ state, (shorter.run.run state).1 ≠ .error .outOfRounds → longer.run.run state = shorter.run.run state

namespace GoesOn

theorem refl (code : Exec α) : GoesOn code code :=
  fun _ _ => rfl

theorem of_outOfRounds (longer : Exec α) : GoesOn (throw .outOfRounds) longer :=
  fun _ different => absurd rfl different

theorem bind {shorter longer : Exec α} {next next' : α → Exec β} (first : GoesOn shorter longer)
    (second : ∀ a, GoesOn (next a) (next' a)) : GoesOn (shorter >>= next) (longer >>= next') := by
  intro state different
  have same := first state
  rw [run_bind] at different
  rw [run_bind, run_bind]
  cases ran : shorter.run.run state with
  | mk result middle =>
      rw [ran] at different same
      cases result with
      | ok a =>
          rw [same nofun]
          exact second a middle different
      | error halt => rw [same fun isHalt => different (congrArg Except.error (Except.error.inj isHalt))]

/-- A loop that ends within some rounds ends in the same way if it is allowed more. -/
theorem repeatBody {body more : Exec Flow} (goesOn : GoesOn body more) {rounds limit : Nat} (enough : rounds ≤ limit) :
    GoesOn (repeatBody body rounds) (repeatBody more limit) := by
  induction rounds generalizing limit with
  | zero => exact of_outOfRounds _
  | succ rounds ih =>
      obtain ⟨limit, rfl⟩ : ∃ before, limit = before + 1 := ⟨limit - 1, by omega⟩
      apply goesOn.bind
      intro flow
      cases flow with
      | proceed => exact ih (by omega)
      | exit | answer => exact refl _

mutual

theorem runStmt {rounds limit : Nat} (enough : rounds ≤ limit) (args : Row) :
    ∀ statement : Stmt, GoesOn (runStmt rounds args statement) (runStmt limit args statement)
  | .sequence statements => runStmts enough args statements
  | .loop body => (runStmt enough args body).repeatBody enough
  | .debug _ statement => runStmt enough args statement
  | .query _ | .exit _ | .clear _ | .swap .. | .merge .. => refl _

theorem runStmts {rounds limit : Nat} (enough : rounds ≤ limit) (args : Row) :
    ∀ statements : List Stmt, GoesOn (runStmts rounds args statements) (runStmts limit args statements)
  | [] => refl _
  | statement :: statements => by
      rw [Machine.runStmts, Machine.runStmts]
      apply (runStmt enough args statement).bind
      intro flow
      cases flow with
      | proceed => exact runStmts enough args statements
      | exit | answer => exact refl _

end

end GoesOn

variable {state final : State} {flow : Flow}

theorem Returns.goesOn {shorter longer : Exec α} {a : α} (goesOn : GoesOn shorter longer)
    (returns : Returns shorter state a final) : Returns longer state a final := by
  rw [Returns] at returns ⊢
  rw [goesOn state (by simp [returns]), returns]

/-- A statement that ends within some number of rounds ends in the same way if it is allowed more. -/
theorem Returns.runStmt_mono {rounds limit : Nat} (enough : rounds ≤ limit) (args : Row) (statement : Stmt)
    (state : State) (flow : Flow) (final : State) (returns : Returns (runStmt rounds args statement) state flow final) :
    Returns (runStmt limit args statement) state flow final :=
  returns.goesOn (.runStmt enough args statement)

theorem Returns.runStmts_mono {rounds limit : Nat} (enough : rounds ≤ limit) (args : Row) (statements : List Stmt)
    (state : State) (flow : Flow) (final : State) (returns : Returns (runStmts rounds args statements) state flow final) :
    Returns (runStmts limit args statements) state flow final :=
  returns.goesOn (.runStmts enough args statements)

/-- The main statement ends, however many rounds are allowed from some number on. -/
def Finishes (program : Ram.Program) (start final : State) : Prop :=
  ∃ rounds, Returns (runMain program rounds) start () final

theorem Finishes.eventually {program : Ram.Program} {start final : State} (finishes : Finishes program start final) :
    ∃ rounds, ∀ limit, rounds ≤ limit → Returns (runMain program limit) start () final := by
  obtain ⟨rounds, returns⟩ := finishes
  refine ⟨rounds, fun limit enough => ?_⟩
  obtain ⟨_, middle, forgot, rest⟩ := returns.of_bind
  obtain ⟨flow, last, ran, done⟩ := rest.of_bind
  exact forgot.bind ((Returns.runStmt_mono enough [] _ _ _ _ ran).bind done)

theorem Finishes.unique {program : Ram.Program} {start final other : State} (first : Finishes program start final)
    (second : Finishes program start other) : final = other := by
  obtain ⟨rounds, ran⟩ := first.eventually
  obtain ⟨rounds', ran'⟩ := second.eventually
  exact ((ran _ (Nat.le_max_left rounds rounds')).unique (ran' _ (Nat.le_max_right rounds rounds'))).2

/-- A run without a fault finishes. -/
theorem Finishes.of_isOk {program : Ram.Program} {rounds : Nat} {start : State}
    (isOk : ((runMain program rounds).run.run start).1.isOk = true) :
    Finishes program start ((runMain program rounds).run.run start).2 := by
  refine ⟨rounds, ?_⟩
  rw [Returns]
  generalize (runMain program rounds).run.run start = result at isOk ⊢
  obtain ⟨ended, state⟩ := result
  cases ended with
  | ok value => rfl
  | error halt => cases isOk

end Rounds

/-! ## Statements one after another -/

section Sequence

variable {rounds : Nat} {args : Row} {state middle final : State}

theorem Returns.runStmts_nil : Returns (runStmts rounds args []) state .proceed state := by
  rw [runStmts]
  exact Returns.pure _ _

theorem Returns.runStmts_cons {statement : Stmt} {statements : List Stmt} {flow : Flow}
    (first : Returns (runStmt rounds args statement) state .proceed middle)
    (rest : Returns (runStmts rounds args statements) middle flow final) :
    Returns (runStmts rounds args (statement :: statements)) state flow final := by
  rw [runStmts]
  exact first.bind rest

theorem Returns.runStmts_append {first second : List Stmt} {flow : Flow}
    (ran : Returns (runStmts rounds args first) state .proceed middle)
    (rest : Returns (runStmts rounds args second) middle flow final) :
    Returns (runStmts rounds args (first ++ second)) state flow final := by
  induction first generalizing state with
  | nil =>
      rw [runStmts] at ran
      rw [← ran.eq_of_pure.2]
      exact rest
  | cons statement statements ih =>
      rw [runStmts] at ran
      obtain ⟨flow', between, head, tail⟩ := ran.of_bind
      cases flow' with
      | proceed => exact Returns.runStmts_cons head (ih tail)
      | exit => cases tail
      | answer row => cases tail

end Sequence

/-! ## Calls -/

/-- The row that a flow leaves a subroutine with. -/
def Flow.answer? : Flow → Option Row
  | proceed => none
  | exit => none
  | answer row => some row

/-- A call answers what the body of the subroutine does, run with no row bound. -/
theorem Returns.callSubroutine {program : Ram.Program} {name : String} {subroutine : Subroutine} {rounds : Nat}
    {args : Row} {state final : State} {flow : Flow} (found : program.subroutine? name = some subroutine)
    (count : args.length = subroutine.parameters.length)
    (ran : Returns (runStmt rounds args subroutine.body.tree) { state with bindings := [] } flow final) :
    Returns (callSubroutine program rounds name args) state flow.answer? final := by
  rw [Machine.callSubroutine, found]
  simp only [if_pos count]
  have forgets : Returns forgetBindings state () { state with bindings := [] } := Returns.modify _ _
  refine forgets.bind (ran.bind ?_)
  cases flow <;> exact Returns.pure _ _

end Machine

end DatalogRam
