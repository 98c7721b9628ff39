import DatalogRam.Proofs.Machine.Evaluating

/-!
# Histories

A run changes its store in single steps: it inserts a row, clears a table, exchanges two tables or adds the rows of
one table to another. The code below runs like that of `Execution` and writes down every change. The store at any
point of a run is what the changes up to this point make of the first store, also if the run ends early.
-/

namespace DatalogRam.Machine

open Ram

/-- A change of a store. -/
inductive Change where
  | insert (relation : String) (row : Row)
  | clear (relation : String)
  | swap (left right : String)
  | merge (source target : String)
  deriving DecidableEq, Repr

namespace Change

def apply (store : Store) : Change → Store
  | insert relation row => store.insert relation row
  | clear relation => store.clear relation
  | swap left right => store.swap left right
  | merge source target => store.merge source target

/-- The tables that a change may change. -/
def tables : Change → List String
  | insert relation _ => [relation]
  | clear relation => [relation]
  | swap left right => [left, right]
  | merge _ target => [target]

/-- The tables whose rows a change takes away. -/
def displaced : Change → List String
  | clear relation => [relation]
  | swap left right => [left, right]
  | insert .. | merge .. => []

theorem rows_apply {change : Change} {table : String} (other : table ∉ change.tables) (store : Store) :
    (change.apply store).rows table = store.rows table := by
  cases change <;> simp only [tables, List.mem_cons, List.not_mem_nil, or_false, not_or] at other <;>
    simp [apply, Store.rows_insert, Store.rows_clear, Store.rows_swap, Store.rows_merge, other]

theorem mem_rows_apply {change : Change} {table : String} (kept : table ∉ change.displaced) {store : Store} {row : Row}
    (member : row ∈ store.rows table) : row ∈ (change.apply store).rows table := by
  cases change with
  | insert relation added =>
      rw [apply, Store.rows_insert]
      split
      · next same => exact (Rows.mem_insert ..).2 (.inr (same ▸ member))
      · exact member
  | merge source target =>
      rw [apply, Store.rows_merge]
      split
      · next same => exact (Rows.mem_union ..).2 (.inl (same ▸ member))
      · exact member
  | clear relation => rwa [rows_apply kept]
  | swap left right => rwa [rows_apply kept]

end Change

/-- The store after changes, one after another. -/
def Store.after (store : Store) (changes : List Change) : Store :=
  changes.foldl Change.apply store

namespace Store

theorem after_append (store : Store) (changes more : List Change) :
    store.after (changes ++ more) = (store.after changes).after more :=
  List.foldl_append

theorem rows_after {table : String} {changes : List Change} (others : ∀ change ∈ changes, table ∉ change.tables)
    (store : Store) : (store.after changes).rows table = store.rows table := by
  induction changes generalizing store with
  | nil => rfl
  | cons change changes ih =>
      have rest := ih (fun other member => others other (List.mem_cons_of_mem _ member)) (change.apply store)
      exact rest.trans (Change.rows_apply (others change List.mem_cons_self) store)

end Store

/-! ## Runs with a history -/

/-- A run that writes down what it changes. -/
abbrev Logged := ExceptT Halt (StateM (State × List Change))

/-- Run code that changes no table. -/
def quietly {α : Type} (code : Exec α) : Logged α :=
  ExceptT.mk <| modifyGet fun (state, log) =>
    let (result, state) := code.run.run state
    (result, (state, log))

/-- Change the store, and write down how. -/
def change (change : Change) : Logged Flow := do
  modify fun (state, log) => ({ state with store := change.apply state.store }, log ++ [change])
  return .proceed

def logRows (tuple : Nat) (body : Logged Flow) : List Row → Logged Flow
  | [] => return .proceed
  | row :: rows => do
      quietly (bindRow tuple row)
      match ← body with
      | .answer result => return .answer result
      | _ => logRows tuple body rows

def logOp (args : Row) : Op → Logged Flow
  | .scan relation tuple nested => do logRows tuple (logOp args nested) (← quietly (rowsOf relation))
  | .filter condition nested => do
      if ← quietly (evalCond args condition) then logOp args nested else return .proceed
  | .aggregate relation tuple function value condition nested => do
      let rows ← quietly (rowsOf relation)
      let values ← quietly (collectValues tuple (evalCond args condition) (evalFolded args value) rows)
      match function.fold values with
      | none => return .proceed
      | some result =>
          quietly (bindRow tuple [result])
          logOp args nested
  | .insert relation values => do
      let row ← quietly (evalExprs args values)
      change (.insert relation row)
  | .answer values => return .answer (← quietly (evalExprs args values))

def logBody (body : Logged Flow) : Nat → Logged Flow
  | 0 => throw .outOfRounds
  | rounds + 1 => do
      match ← body with
      | .proceed => logBody body rounds
      | .exit => return .proceed
      | .answer row => return .answer row

mutual

def logStmt (rounds : Nat) (args : Row) : Stmt → Logged Flow
  | .sequence statements => logStmts rounds args statements
  | .query operation => logOp args operation
  | .loop body => logBody (logStmt rounds args body) rounds
  | .exit condition => do return if ← quietly (evalCond args condition) then .exit else .proceed
  | .clear relation => change (.clear relation)
  | .swap left right => change (.swap left right)
  | .merge source target => change (.merge source target)
  | .debug _ statement => logStmt rounds args statement

def logStmts (rounds : Nat) (args : Row) : List Stmt → Logged Flow
  | [] => return .proceed
  | statement :: statements => do
      match ← logStmt rounds args statement with
      | .proceed => logStmts rounds args statements
      | flow => return flow

end

/-- Run the main statement of a program and write down what it changes. -/
def logMain (program : Ram.Program) (rounds : Nat) : Logged Unit := do
  quietly forgetBindings
  let _ ← logStmt rounds [] program.main.tree

/-- All changes that the main statement of a program makes until it ends, for whatever reason. -/
def history (program : Ram.Program) (rounds : Nat) (start : State) : List Change :=
  ((logMain program rounds).run.run (start, [])).2.2

/-! ## Code that changes no table -/

variable {α β : Type} {args : Row}

/-- Code after which the store is as before and every symbol is at its place, also if it ends early. -/
structure LeavesStore (code : Exec α) : Prop where
  store : ∀ state, (code.run.run state).2.store = state.store
  symbols : ∀ state, (code.run.run state).2.symbols.Extends state.symbols

namespace LeavesStore

theorem of_same {code : Exec α} (store : ∀ state, (code.run.run state).2.store = state.store)
    (symbols : ∀ state, (code.run.run state).2.symbols = state.symbols) : LeavesStore code where
  store := store
  symbols := fun state => symbols state ▸ Symbols.Extends.refl _

theorem pure (a : α) : LeavesStore (pure a) := of_same (fun _ => rfl) fun _ => rfl

theorem raise (fault : Fault) : LeavesStore (raise fault : Exec α) := of_same (fun _ => rfl) fun _ => rfl

theorem get : LeavesStore (get : Exec State) := of_same (fun _ => rfl) fun _ => rfl

theorem bind {code : Exec α} {next : α → Exec β} (first : LeavesStore code) (second : ∀ a, LeavesStore (next a)) :
    LeavesStore (code >>= next) := by
  have both (state : State) : ((code >>= next).run.run state).2.store = state.store ∧
      ((code >>= next).run.run state).2.symbols.Extends state.symbols := by
    have isStore := first.store state
    have extends' := first.symbols state
    rw [run_bind]
    generalize code.run.run state = ran at isStore extends' ⊢
    obtain ⟨result, middle⟩ := ran
    cases result with
    | ok a => exact ⟨((second a).store middle).trans isStore, ((second a).symbols middle).trans extends'⟩
    | error halt => exact ⟨isStore, extends'⟩
  exact ⟨fun state => (both state).1, fun state => (both state).2⟩

theorem elementOf (tuple column : Nat) : LeavesStore (elementOf tuple column) := by
  apply get.bind
  intro state
  split
  · exact raise _
  · split
    · exact raise _
    · exact pure _

/-- An operator may intern a text. -/
theorem runOperator (op : Operator) (values : List Int64) : LeavesStore (runOperator op values) := by
  constructor <;> intro state <;> rw [Returns.run_runOperator] <;> split
  · rfl
  · rfl
  · exact Symbols.Extends.refl _
  · next applied => exact (repeats_of_applied applied).grows

mutual

theorem evalExpr : ∀ expr : Expr, LeavesStore (evalExpr args expr)
  | .signed _ | .unsigned _ | .float _ => by
      rw [Machine.evalExpr]
      exact pure _
  | .element tuple column => by
      rw [Machine.evalExpr]
      exact elementOf tuple column
  | .argument index => by
      rw [Machine.evalExpr]
      split
      · exact raise _
      · exact pure _
  | .undefined | .external .. | .pack _ => by
      rw [Machine.evalExpr]
      exact raise _
  | .operator op operands => by
      rw [Machine.evalExpr]
      exact (evalExprs operands).bind (runOperator op)
  | .autoIncrement => by
      rw [Machine.evalExpr]
      exact of_same (fun _ => rfl) fun _ => rfl

theorem evalExprs : ∀ exprs : List Expr, LeavesStore (evalExprs args exprs)
  | [] => by
      rw [Machine.evalExprs]
      exact pure []
  | expr :: exprs => by
      rw [Machine.evalExprs]
      exact (evalExpr expr).bind fun value => (evalExprs exprs).bind fun values => pure (value :: values)

end

theorem evalPattern (exprs : List Expr) : LeavesStore (evalPattern args exprs) := by
  induction exprs with
  | nil => exact pure []
  | cons expr exprs ih =>
      rw [Machine.evalPattern]
      split
      · exact (pure none).bind fun wanted => ih.bind fun others => pure (wanted :: others)
      · rw [map_eq_pure_bind]
        exact ((evalExpr expr).bind fun value => pure (some value)).bind fun wanted =>
          ih.bind fun others => pure (wanted :: others)

theorem evalCond (condition : Cond) : LeavesStore (evalCond args condition) := by
  induction condition with
  | true | false => exact pure _
  | both left right isLeft isRight =>
      rw [Machine.evalCond]
      apply isLeft.bind
      intro holds
      cases holds with
      | true => exact isRight
      | false => exact pure false
  | not condition ih => exact ih.bind fun holds => pure (!holds)
  | compare op left right =>
      exact (evalExpr left).bind fun first => (evalExpr right).bind fun second => pure (op.holds first second)
  | holds relation values => exact (evalPattern values).bind fun pattern => get.bind fun state => pure _
  | isEmpty relation => exact get.bind fun state => pure _

theorem evalFolded (folded : Option Expr) : LeavesStore (evalFolded args folded) := by
  cases folded with
  | none => exact pure 0
  | some expr => exact evalExpr expr

theorem bindRow (tuple : Nat) (row : Row) : LeavesStore (bindRow tuple row) := of_same (fun _ => rfl) fun _ => rfl

theorem rowsOf (relation : String) : LeavesStore (rowsOf relation) := of_same (fun _ => rfl) fun _ => rfl

theorem collectValues (tuple : Nat) {condition : Exec Bool} {value : Exec Int64} (isCondition : LeavesStore condition)
    (isValue : LeavesStore value) (rows : List Row) : LeavesStore (collectValues tuple condition value rows) := by
  induction rows with
  | nil => exact pure []
  | cons row rows ih =>
      rw [Machine.collectValues]
      apply (bindRow tuple row).bind
      intro _
      apply isCondition.bind
      intro holds
      cases holds with
      | true => exact isValue.bind fun first => ih.bind fun others => pure (first :: others)
      | false => exact ih

end LeavesStore

/-! ## A history explains the run -/

/-- A logged run is the plain one, every change that it writes down is allowed, and together they make the store. Every
symbol stays at its place. -/
def Logs (allowed : Change → Prop) (logged : Logged α) (plain : Exec α) : Prop :=
  ∀ state log, ∃ changes, (∀ change ∈ changes, allowed change) ∧
    (plain.run.run state).2.store = state.store.after changes ∧
      (plain.run.run state).2.symbols.Extends state.symbols ∧
        logged.run.run (state, log) = ((plain.run.run state).1, (plain.run.run state).2, log ++ changes)

namespace Logs

variable {allowed : Change → Prop}

theorem quietly {code : Exec α} (leaves : LeavesStore code) : Logs allowed (quietly code) code := by
  intro state log
  refine ⟨[], fun change member => absurd member List.not_mem_nil, leaves.store state, leaves.symbols state, ?_⟩
  rw [List.append_nil]
  rfl

theorem pure (a : α) : Logs allowed (pure a) (pure a) :=
  quietly (LeavesStore.pure a)

theorem outOfRounds : Logs allowed (throw .outOfRounds : Logged α) (throw .outOfRounds) := by
  intro state log
  refine ⟨[], fun change member => absurd member List.not_mem_nil, rfl, Symbols.Extends.refl _, ?_⟩
  rw [List.append_nil]
  rfl

theorem change {made : Change} (isAllowed : allowed made) :
    Logs allowed (change made) (modifyStore fun store => made.apply store) :=
  fun _ _ => ⟨[made], List.forall_mem_singleton.2 isAllowed, rfl, Symbols.Extends.refl _, rfl⟩

theorem bind {logged : Logged α} {plain : Exec α} {next : α → Logged β} {next' : α → Exec β}
    (first : Logs allowed logged plain) (second : ∀ a, Logs allowed (next a) (next' a)) :
    Logs allowed (logged >>= next) (plain >>= next') := by
  intro state log
  obtain ⟨changes, areAllowed, isStore, extends', isRun⟩ := first state log
  rw [run_bind, run_bind, isRun]
  generalize plain.run.run state = ran at isStore extends' ⊢
  obtain ⟨result, middle⟩ := ran
  cases result with
  | error halt => exact ⟨changes, areAllowed, isStore, extends', rfl⟩
  | ok a =>
      obtain ⟨more, alsoAllowed, isLast, extendsMore, rest⟩ := second a middle (log ++ changes)
      refine ⟨changes ++ more, List.forall_mem_append.2 ⟨areAllowed, alsoAllowed⟩, ?_, extendsMore.trans extends', ?_⟩
      · rw [Store.after_append, ← isStore]
        exact isLast
      · rw [← List.append_assoc]
        exact rest

theorem forRows {logged : Logged Flow} {plain : Exec Flow} (body : Logs allowed logged plain) (tuple : Nat)
    (rows : List Row) : Logs allowed (logRows tuple logged rows) (forRows tuple plain rows) := by
  induction rows with
  | nil => exact pure Flow.proceed
  | cons row rows ih =>
      rw [logRows, Machine.forRows]
      apply (quietly (LeavesStore.bindRow tuple row)).bind
      intro _
      apply body.bind
      intro flow
      cases flow with
      | answer result => exact pure (Flow.answer result)
      | proceed | exit => exact ih

theorem repeatBody {logged : Logged Flow} {plain : Exec Flow} (body : Logs allowed logged plain) (rounds : Nat) :
    Logs allowed (logBody logged rounds) (repeatBody plain rounds) := by
  induction rounds with
  | zero => exact outOfRounds
  | succ rounds ih =>
      rw [logBody, Machine.repeatBody]
      apply body.bind
      intro flow
      cases flow with
      | proceed => exact ih
      | exit => exact pure Flow.proceed
      | answer row => exact pure (Flow.answer row)

end Logs

/-! ## What a statement may change -/

/-- The changes that an operation can make are allowed. -/
def Permits (allowed : Change → Prop) : Op → Prop
  | .scan _ _ nested => Permits allowed nested
  | .filter _ nested => Permits allowed nested
  | .aggregate _ _ _ _ _ nested => Permits allowed nested
  | .insert relation _ => ∀ row, allowed (.insert relation row)
  | .answer _ => True

mutual

/-- The changes that a statement can make are allowed. -/
def Allows (allowed : Change → Prop) : Stmt → Prop
  | .sequence statements => AllAllow allowed statements
  | .query operation => Permits allowed operation
  | .loop body => Allows allowed body
  | .exit _ => True
  | .clear relation => allowed (.clear relation)
  | .swap left right => allowed (.swap left right)
  | .merge source target => allowed (.merge source target)
  | .debug _ statement => Allows allowed statement

def AllAllow (allowed : Change → Prop) : List Stmt → Prop
  | [] => True
  | statement :: statements => Allows allowed statement ∧ AllAllow allowed statements

end

variable {allowed : Change → Prop}

theorem allAllow_iff {statements : List Stmt} :
    AllAllow allowed statements ↔ ∀ statement ∈ statements, Allows allowed statement := by
  induction statements with
  | nil => simp [AllAllow]
  | cons statement statements ih => rw [AllAllow, ih, List.forall_mem_cons]

theorem Permits.mono {more : Change → Prop} (weaken : ∀ change, allowed change → more change) {operation : Op}
    (permits : Permits allowed operation) : Permits more operation := by
  induction operation with
  | scan _ _ _ ih | filter _ _ ih | aggregate _ _ _ _ _ _ ih => exact ih permits
  | insert relation values => exact fun row => weaken _ (permits row)
  | answer values => exact trivial

mutual

theorem Allows.mono {more : Change → Prop} (weaken : ∀ change, allowed change → more change) :
    ∀ statement : Stmt, Allows allowed statement → Allows more statement
  | .sequence statements, allows => AllAllow.mono weaken statements allows
  | .query _, permits => Permits.mono weaken permits
  | .loop body, allows => Allows.mono weaken body allows
  | .exit _, _ => trivial
  | .clear _, isAllowed => weaken _ isAllowed
  | .swap _ _, isAllowed => weaken _ isAllowed
  | .merge _ _, isAllowed => weaken _ isAllowed
  | .debug _ statement, allows => Allows.mono weaken statement allows

theorem AllAllow.mono {more : Change → Prop} (weaken : ∀ change, allowed change → more change) :
    ∀ statements : List Stmt, AllAllow allowed statements → AllAllow more statements
  | [], _ => trivial
  | statement :: statements, ⟨first, rest⟩ =>
      ⟨Allows.mono weaken statement first, AllAllow.mono weaken statements rest⟩

end

namespace Logs

theorem runOp (operation : Op) (permits : Permits allowed operation) :
    Logs allowed (logOp args operation) (runOp args operation) := by
  induction operation with
  | scan relation tuple nested ih =>
      exact (quietly (LeavesStore.rowsOf relation)).bind fun rows => (ih permits).forRows tuple rows
  | filter condition nested ih =>
      rw [logOp, Machine.runOp]
      apply (quietly (LeavesStore.evalCond condition)).bind
      intro holds
      cases holds with
      | true => exact ih permits
      | false => exact pure Flow.proceed
  | aggregate relation tuple function value condition nested ih =>
      rw [logOp, Machine.runOp]
      apply (quietly (LeavesStore.rowsOf relation)).bind
      intro rows
      apply (quietly (LeavesStore.collectValues tuple (LeavesStore.evalCond condition) (LeavesStore.evalFolded value)
        rows)).bind
      intro values
      cases function.fold values with
      | none => exact pure Flow.proceed
      | some result => exact (quietly (LeavesStore.bindRow tuple [result])).bind fun _ => ih permits
  | insert relation values =>
      exact (quietly (LeavesStore.evalExprs values)).bind fun row => change (permits row)
  | answer values =>
      exact (quietly (LeavesStore.evalExprs values)).bind fun row => pure (Flow.answer row)

mutual

theorem runStmt (rounds : Nat) : ∀ statement : Stmt, Allows allowed statement →
    Logs allowed (logStmt rounds args statement) (runStmt rounds args statement)
  | .sequence statements, allows => by
      rw [logStmt, Machine.runStmt]
      exact runStmts rounds statements allows
  | .query operation, allows => by
      rw [logStmt, Machine.runStmt]
      exact runOp operation allows
  | .loop body, allows => by
      rw [logStmt, Machine.runStmt]
      exact (runStmt rounds body allows).repeatBody rounds
  | .exit condition, _ => by
      rw [logStmt, Machine.runStmt]
      exact (quietly (LeavesStore.evalCond condition)).bind fun holds => pure (if holds then Flow.exit else Flow.proceed)
  | .clear relation, allows => by
      rw [logStmt, Machine.runStmt]
      exact change allows
  | .swap left right, allows => by
      rw [logStmt, Machine.runStmt]
      exact change allows
  | .merge source target, allows => by
      rw [logStmt, Machine.runStmt]
      exact change allows
  | .debug _ statement, allows => by
      rw [logStmt, Machine.runStmt]
      exact runStmt rounds statement allows

theorem runStmts (rounds : Nat) : ∀ statements : List Stmt, AllAllow allowed statements →
    Logs allowed (logStmts rounds args statements) (runStmts rounds args statements)
  | [], _ => by
      rw [logStmts, Machine.runStmts]
      exact pure Flow.proceed
  | statement :: statements, allows => by
      rw [logStmts, Machine.runStmts]
      apply (runStmt rounds statement allows.1).bind
      intro flow
      cases flow with
      | proceed => exact runStmts rounds statements allows.2
      | exit => exact pure Flow.exit
      | answer row => exact pure (Flow.answer row)

end

end Logs

variable {program : Ram.Program}

theorem logs_main (allows : Allows allowed program.main.tree) (rounds : Nat) :
    Logs allowed (logMain program rounds) (runMain program rounds) := by
  refine (Logs.quietly (LeavesStore.of_same (fun _ => rfl) fun _ => rfl)).bind fun _ => ?_
  exact (Logs.runStmt rounds _ allows).bind fun _ => Logs.pure ()

/-- The run with a history is the run of the program, and every change in its history is allowed. -/
theorem history_spec (allows : Allows allowed program.main.tree) (rounds : Nat) (start : State) :
    (logMain program rounds).run.run (start, []) =
        (((runMain program rounds).run.run start).1, ((runMain program rounds).run.run start).2,
          history program rounds start) ∧
      ((runMain program rounds).run.run start).2.store = start.store.after (history program rounds start) ∧
      ∀ change ∈ history program rounds start, allowed change := by
  obtain ⟨changes, areAllowed, isStore, _, isRun⟩ := logs_main allows rounds start []
  have isHistory : history program rounds start = changes := by
    rw [history, isRun]
    rfl
  rw [isHistory]
  exact ⟨isRun, isStore, areAllowed⟩

/-- Code that is not allowed to change a table leaves its rows as they are, however it ends. -/
theorem rows_of_allows {statement : Stmt} {table : String}
    (allows : Allows (fun change => table ∉ change.tables) statement) (rounds : Nat) (args : Row) (state : State) :
    ((runStmt rounds args statement).run.run state).2.store.rows table = state.store.rows table := by
  obtain ⟨changes, areAllowed, isStore, _⟩ := @Logs.runStmt args _ rounds statement allows state []
  rw [isStore]
  exact Store.rows_after areAllowed state.store

/-! ## More rounds -/

/-- The runs are the same, unless the first one runs out of rounds: then the second one goes on from there. -/
def Prolongs (shorter longer : Logged α) : Prop :=
  ∀ before, shorter.run.run before = longer.run.run before ∨
    (shorter.run.run before).1 = .error .outOfRounds ∧ (shorter.run.run before).2.2 <+: (longer.run.run before).2.2

/-- A run that only adds to its history. -/
def Grows (logged : Logged α) : Prop :=
  ∀ before, before.2 <+: (logged.run.run before).2.2

theorem Logs.grows {logged : Logged α} {plain : Exec α} (logs : Logs allowed logged plain) : Grows logged := by
  rintro ⟨state, log⟩
  obtain ⟨changes, _, _, _, isRun⟩ := logs state log
  rw [isRun]
  exact List.prefix_append log changes

namespace Prolongs

theorem refl (logged : Logged α) : Prolongs logged logged := fun _ => .inl rfl

theorem of_outOfRounds {logged : Logged α} (grows : Grows logged) : Prolongs (throw .outOfRounds) logged :=
  fun before => .inr ⟨rfl, grows before⟩

theorem bind {shorter longer : Logged α} {next next' : α → Logged β} (first : Prolongs shorter longer)
    (grows : ∀ a, Grows (next' a)) (second : ∀ a, Prolongs (next a) (next' a)) :
    Prolongs (shorter >>= next) (longer >>= next') := by
  intro before
  have isFirst := first before
  rw [run_bind, run_bind]
  generalize shorter.run.run before = one at isFirst ⊢
  generalize longer.run.run before = other at isFirst ⊢
  obtain ⟨result, state, log⟩ := one
  obtain ⟨result', state', log'⟩ := other
  rcases isFirst with same | ⟨rfl, isPrefix⟩
  · cases same
    cases result with
    | ok a => exact second a (state, log)
    | error halt => exact .inl rfl
  · refine .inr ⟨rfl, ?_⟩
    cases result' with
    | ok a => exact List.IsPrefix.trans isPrefix (grows a (state', log'))
    | error halt => exact isPrefix

theorem logBody {shorter longer : Logged Flow} {plain : Exec Flow} (body : Prolongs shorter longer)
    (logs : Logs allowed longer plain) {rounds limit : Nat} (enough : rounds ≤ limit) :
    Prolongs (logBody shorter rounds) (logBody longer limit) := by
  induction rounds generalizing limit with
  | zero => exact of_outOfRounds (logs.repeatBody limit).grows
  | succ rounds ih =>
      obtain ⟨limit, rfl⟩ : ∃ fewer, limit = fewer + 1 := ⟨limit - 1, by omega⟩
      rw [Machine.logBody, Machine.logBody]
      refine body.bind (fun flow => ?_) fun flow => ?_
      · cases flow with
        | proceed => exact (logs.repeatBody limit).grows
        | exit => exact (@Logs.pure _ allowed Flow.proceed).grows
        | answer row => exact (@Logs.pure _ allowed (Flow.answer row)).grows
      · cases flow with
        | proceed => exact ih (Nat.le_of_succ_le_succ enough)
        | exit | answer => exact refl _

mutual

theorem logStmt {rounds limit : Nat} (enough : rounds ≤ limit) : ∀ statement : Stmt, Allows allowed statement →
    Prolongs (logStmt rounds args statement) (logStmt limit args statement)
  | .sequence statements, allows => by
      rw [Machine.logStmt, Machine.logStmt]
      exact logStmts enough statements allows
  | .loop body, allows => by
      rw [Machine.logStmt, Machine.logStmt]
      exact logBody (logStmt enough body allows) (Logs.runStmt limit body allows) enough
  | .debug _ statement, allows => by
      rw [Machine.logStmt, Machine.logStmt]
      exact logStmt enough statement allows
  | .query _, _ | .exit _, _ | .clear _, _ | .swap .., _ | .merge .., _ => by
      rw [Machine.logStmt, Machine.logStmt]
      exact refl _

theorem logStmts {rounds limit : Nat} (enough : rounds ≤ limit) : ∀ statements : List Stmt,
    AllAllow allowed statements → Prolongs (logStmts rounds args statements) (logStmts limit args statements)
  | [], _ => by
      rw [Machine.logStmts, Machine.logStmts]
      exact refl _
  | statement :: statements, allows => by
      rw [Machine.logStmts, Machine.logStmts]
      refine (logStmt enough statement allows.1).bind (fun flow => ?_) fun flow => ?_
      · cases flow with
        | proceed => exact (@Logs.runStmts args _ limit statements allows.2).grows
        | exit => exact (@Logs.pure _ allowed Flow.exit).grows
        | answer row => exact (@Logs.pure _ allowed (Flow.answer row)).grows
      · cases flow with
        | proceed => exact logStmts enough statements allows.2
        | exit | answer => exact refl _

end

end Prolongs

/-- Allowing more rounds only prolongs the history of a run. -/
theorem history_prefix (allows : Allows allowed program.main.tree) {rounds limit : Nat} (enough : rounds ≤ limit)
    (start : State) : history program rounds start <+: history program limit start := by
  have prolongs : Prolongs (logMain program rounds) (logMain program limit) := by
    refine (Prolongs.refl _).bind (fun _ => ?_) fun _ => ?_
    · exact ((Logs.runStmt limit _ allows).bind fun _ => Logs.pure ()).grows
    · exact (Prolongs.logStmt enough _ allows).bind (fun _ => (@Logs.pure _ allowed ()).grows) fun _ => .refl _
  rcases prolongs (start, []) with same | ⟨_, isPrefix⟩
  · have stays : history program rounds start = history program limit start := by
      rw [history, same, history]
    exact stays ▸ List.prefix_refl _
  · exact isPrefix

end DatalogRam.Machine
