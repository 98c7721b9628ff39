import DatalogRam.Proofs.Machine.Computes
import DatalogRam.Proofs.Machine.Evaluating

/-!
# What statements maintain

A partial counterpart of `Computes`: whenever statements end on a store with some property, they have come to
their last one and leave a store with another property. Nothing is said about whether they end.
-/

namespace DatalogRam.Machine

open Ram

/-- From stores with a property the statements end, if at all, in stores with another one. -/
def Maintains (args : Row) (statements : List Stmt) (before after : Store → Prop) : Prop :=
  ∀ (rounds : Nat) (state last : State) (flow : Flow), before state.store →
    Returns (runStmts rounds args statements) state flow last → flow = .proceed ∧ after last.store

namespace Maintains

variable {args : Row} {statements : List Stmt} {before between after : Store → Prop}

theorem of_leads
    (leads : ∀ start, before start → ∃ final, after final ∧
      ∀ rounds, Leads (runStmts rounds args statements) start .proceed final) :
    Maintains args statements before after := by
  intro rounds state last flow isBefore returns
  obtain ⟨final, isAfter, ran⟩ := leads state.store isBefore
  obtain ⟨bindings, other⟩ := ran rounds state rfl
  obtain ⟨rfl, rfl⟩ := returns.unique other
  exact ⟨rfl, isAfter⟩

theorem append {first second : List Stmt} (maintains : Maintains args first before between)
    (rest : Maintains args second between after) : Maintains args (first ++ second) before after := by
  intro rounds state last flow isBefore returns
  obtain ⟨flow', middle, ran, continues⟩ := returns.of_runStmts_append
  obtain ⟨proceeds, isBetween⟩ := maintains rounds state middle flow' isBefore ran
  exact rest rounds middle last flow isBetween (continues proceeds)

theorem sequence (maintains : Maintains args statements before after) :
    Maintains args [.sequence statements] before after := by
  intro rounds state last flow isBefore returns
  rw [runStmts_singleton, runStmt] at returns
  exact maintains rounds state last flow isBefore returns

theorem consequence {stronger weaker : Store → Prop} (maintains : Maintains args statements before after)
    (given : ∀ store, stronger store → before store) (implies : ∀ store, after store → weaker store) :
    Maintains args statements stronger weaker := by
  intro rounds state last flow isBefore returns
  obtain ⟨proceeds, isAfter⟩ := maintains rounds state last flow (given _ isBefore) returns
  exact ⟨proceeds, implies _ isAfter⟩

theorem nil (property : Store → Prop) : Maintains args [] property property :=
  of_leads fun start isStart => ⟨start, isStart, fun _ => Leads.nil start⟩

theorem cons {statement : Stmt} (maintains : Maintains args [statement] before between)
    (rest : Maintains args statements between after) : Maintains args (statement :: statements) before after :=
  maintains.append rest

/-- Statements maintain what each one of them does. -/
theorem all (each : ∀ statement ∈ statements, Maintains args [statement] before before) :
    Maintains args statements before before := by
  induction statements with
  | nil => exact nil before
  | cons statement rest ih =>
      exact (each statement List.mem_cons_self).cons (ih fun other member => each other (List.mem_cons_of_mem _ member))

theorem debug {text : String} {statement : Stmt} (maintains : Maintains args [statement] before after) :
    Maintains args [.debug text statement] before after := by
  intro rounds state last flow isBefore returns
  rw [runStmts_singleton, runStmt, ← runStmts_singleton] at returns
  exact maintains rounds state last flow isBefore returns

/-- A loop that ends in the middle of a round maintains what both parts of the round do. -/
theorem loop {search advance : List Stmt} {condition : Cond} (searched : Maintains args search before before)
    (advanced : Maintains args advance before before) :
    Maintains args [.loop (.sequence (search ++ [.exit condition] ++ advance))] before before := by
  intro rounds state last flow isBefore returns
  rw [runStmts_singleton, runStmt] at returns
  have round : ∀ (state last : State) (flow : Flow), before state.store →
      Returns (runStmt rounds args (.sequence (search ++ [.exit condition] ++ advance))) state flow last →
        (flow = .proceed ∨ flow = .exit) ∧ before last.store := by
    intro state last flow isBefore returns
    rw [runStmt, List.append_assoc] at returns
    obtain ⟨flow', middle, ran, continues⟩ := returns.of_runStmts_append
    obtain ⟨proceeds, isMiddle⟩ := searched rounds state middle flow' isBefore ran
    have rest := continues proceeds
    rw [List.singleton_append, runStmts] at rest
    obtain ⟨flow'', tested, test, rest⟩ := rest.of_bind
    rw [runStmt] at test
    obtain ⟨answer, after, isAnswer, exits⟩ := test.of_bind
    obtain ⟨rfl, rfl⟩ := exits.eq_of_pure
    have isTested : before tested.store := by rwa [(evaluates_cond isAnswer).store]
    cases answer with
    | true =>
        obtain ⟨rfl, rfl⟩ := rest.eq_of_pure
        exact ⟨.inr rfl, isTested⟩
    | false =>
        obtain ⟨proceeds, isLast⟩ := advanced rounds tested last flow isTested rest
        exact ⟨.inl proceeds, isLast⟩
  suffices general : ∀ (limit : Nat) (state : State), before state.store →
      Returns (repeatBody (runStmt rounds args (.sequence (search ++ [.exit condition] ++ advance))) limit) state
        flow last → flow = .proceed ∧ before last.store from
    general rounds state isBefore returns
  intro limit
  induction limit with
  | zero => exact fun _ _ returns => absurd returns Returns.not_throw
  | succ limit ih =>
      intro state isBefore returns
      rw [repeatBody] at returns
      obtain ⟨flow', middle, first, rest⟩ := returns.of_bind
      obtain ⟨isFlow, isAfter⟩ := round state middle flow' isBefore first
      rcases isFlow with rfl | rfl
      · exact ih _ isAfter rest
      · obtain ⟨rfl, rfl⟩ := rest.eq_of_pure
        exact ⟨rfl, isAfter⟩

/-- Statements for each element maintain what those for every single element do. -/
theorem leads_flatten {α : Type} {elements : List α} {code : α → List Stmt}
    (each : ∀ element ∈ elements, ∀ start, before start → ∃ final, before final ∧
      ∀ rounds, Leads (runStmts rounds args (code element)) start .proceed final)
    {start : Store} (isBefore : before start) :
    ∃ final, before final ∧
      ∀ rounds, Leads (runStmts rounds args (elements.map code).flatten) start .proceed final := by
  induction elements generalizing start with
  | nil => exact ⟨start, isBefore, fun rounds => Leads.nil start⟩
  | cons element rest ih =>
      obtain ⟨middle, isMiddle, first⟩ := each element List.mem_cons_self start isBefore
      obtain ⟨final, isFinal, onward⟩ :=
        ih (fun other member => each other (List.mem_cons_of_mem _ member)) isMiddle
      refine ⟨final, isFinal, fun rounds => ?_⟩
      rw [List.map_cons, List.flatten_cons]
      exact (first rounds).append (onward rounds)

/-- A program whose main statement maintains a property ends in stores with that property. -/
theorem of_finishes {program : Ram.Program} (maintains : Maintains [] [program.main.tree] before after)
    {start final : State} (isBefore : before start.store) (finishes : Finishes program start final) :
    after final.store := by
  obtain ⟨rounds, returns⟩ := finishes
  obtain ⟨_, middle, forgot, rest⟩ := returns.of_bind
  obtain ⟨_, rfl⟩ := forgot.unique (Returns.modify _ start)
  obtain ⟨flow, last, ran, done⟩ := rest.of_bind
  rw [← runStmts_singleton] at ran
  have isStart : before ({ start with bindings := [] } : State).store := isBefore
  obtain ⟨_, isAfter⟩ := maintains rounds _ last flow isStart ran
  obtain ⟨_, rfl⟩ := done.eq_of_pure
  exact isAfter

end Maintains

/-! ## Queries -/

/-- An operation proceeds, if it ends at all, and keeps a property of the store. -/
def Op.Keeps (args : Row) (property : Store → Prop) (operation : Op) : Prop :=
  ∀ (state last : State) (flow : Flow), property state.store → Returns (runOp args operation) state flow last →
    flow = .proceed ∧ property last.store

theorem evaluates_folded {args : Row} {state final : State} {folded : Option Expr} {value : Int64}
    (returns : Returns (evalFolded args folded) state value final) : Evaluates state final := by
  cases folded with
  | none =>
      rw [returns.eq_of_pure.2]
      exact .refl _
  | some expr => exact evaluates_expr expr returns

/-- Listing values of rows leaves the store as it is. -/
theorem store_of_collectValues {args : Row} {tuple : Nat} {condition : Cond} {folded : Option Expr} {rows : List Row}
    {state final : State} {values : List Int64}
    (returns : Returns (collectValues tuple (evalCond args condition) (evalFolded args folded) rows) state values
      final) : final.store = state.store := by
  induction rows generalizing state final values with
  | nil =>
      rw [collectValues] at returns
      rw [returns.eq_of_pure.2]
  | cons row rows ih =>
      rw [collectValues] at returns
      obtain ⟨_, bound, binds, returns⟩ := returns.of_bind
      cases binds
      obtain ⟨answer, tested, isAnswer, returns⟩ := returns.of_bind
      have sameStore := (evaluates_cond isAnswer).store
      cases answer with
      | true =>
          obtain ⟨first, valued, isFirst, returns⟩ := returns.of_bind
          obtain ⟨others, middle, areOthers, done⟩ := returns.of_bind
          rw [done.eq_of_pure.2, ih areOthers, (evaluates_folded isFirst).store, sameStore]
      | false => rw [ih returns, sameStore]

namespace Op.Keeps

variable {args : Row} {property : Store → Prop} {operation : Op}

theorem filter (keeps : Op.Keeps args property operation) (condition : Cond) :
    Op.Keeps args property (.filter condition operation) := by
  intro state last flow holds returns
  rw [runOp] at returns
  obtain ⟨answer, tested, isAnswer, returns⟩ := returns.of_bind
  have isTested : property tested.store := by rwa [(evaluates_cond isAnswer).store]
  cases answer with
  | true => exact keeps tested last flow isTested returns
  | false =>
      obtain ⟨rfl, rfl⟩ := returns.eq_of_pure
      exact ⟨rfl, isTested⟩

theorem forRows (keeps : Op.Keeps args property operation) {tuple : Nat} {rows : List Row} {state last : State}
    {flow : Flow} (holds : property state.store)
    (returns : Returns (forRows tuple (runOp args operation) rows) state flow last) :
    flow = .proceed ∧ property last.store := by
  induction rows generalizing state with
  | nil =>
      rw [Machine.forRows] at returns
      obtain ⟨rfl, rfl⟩ := returns.eq_of_pure
      exact ⟨rfl, holds⟩
  | cons row rows ih =>
      rw [Machine.forRows] at returns
      obtain ⟨_, bound, binds, returns⟩ := returns.of_bind
      obtain ⟨_, rfl⟩ := binds.unique (Returns.bindRow tuple row state)
      obtain ⟨flow', middle, ran, rest⟩ := returns.of_bind
      have isBound : property ({ state with bindings := state.bindings.set tuple row } : State).store := holds
      obtain ⟨rfl, isMiddle⟩ := keeps _ middle flow' isBound ran
      exact ih isMiddle rest

theorem scan (keeps : Op.Keeps args property operation) (relation : String) (tuple : Nat) :
    Op.Keeps args property (.scan relation tuple operation) := by
  intro state last flow holds returns
  rw [runOp] at returns
  obtain ⟨rows, _, listed, returns⟩ := returns.of_bind
  obtain ⟨rfl, rfl⟩ := listed.unique (Returns.rowsOf relation state)
  exact keeps.forRows holds returns

theorem aggregate (keeps : Op.Keeps args property operation) (relation : String) (tuple : Nat)
    (function : Aggregation) (value : Option Expr) (condition : Cond) :
    Op.Keeps args property (.aggregate relation tuple function value condition operation) := by
  intro state last flow holds returns
  rw [runOp] at returns
  obtain ⟨rows, _, listed, returns⟩ := returns.of_bind
  obtain ⟨rfl, rfl⟩ := listed.unique (Returns.rowsOf relation state)
  obtain ⟨values, collected, collects, returns⟩ := returns.of_bind
  have isCollected : property collected.store := by rwa [store_of_collectValues collects]
  split at returns
  · obtain ⟨rfl, rfl⟩ := returns.eq_of_pure
    exact ⟨rfl, isCollected⟩
  · next result _ =>
      obtain ⟨_, bound, binds, returns⟩ := returns.of_bind
      obtain ⟨_, rfl⟩ := binds.unique (Returns.bindRow tuple [result] collected)
      have isBound :
          property ({ collected with bindings := collected.bindings.set tuple [result] } : State).store := isCollected
      exact keeps _ last flow isBound returns

theorem maintains (keeps : Op.Keeps args property operation) : Maintains args [.query operation] property property := by
  intro rounds state last flow holds returns
  rw [runStmts_singleton, runStmt] at returns
  exact keeps state last flow holds returns

end Op.Keeps

end DatalogRam.Machine
