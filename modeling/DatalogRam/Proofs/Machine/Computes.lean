import DatalogRam.Proofs.Machine.Run

/-!
# What statements compute

Statements compute a relation if, on stores that stand for some value, they end exactly if the relation gives a
result for this value, and then in a store that stands for the result. `Computes.append` joins two such facts,
so that a long sequence of statements is taken apart into its phases.
-/

namespace DatalogRam.Machine

open Ram

/-- Code that leads from every state with one store to a state with another one. -/
def Leads (code : Exec Flow) (start : Store) (flow : Flow) (final : Store) : Prop :=
  ∀ state, state.store = start →
    ∃ bindings, Returns code state flow { state with store := final, bindings := bindings }

section Leads

variable {rounds : Nat} {args : Row} {start middle final : Store} {flow : Flow}

theorem Leads.nil (start : Store) : Leads (runStmts rounds args []) start .proceed start := by
  rintro state rfl
  exact ⟨state.bindings, Returns.runStmts_nil⟩

theorem Leads.cons {statement : Stmt} {statements : List Stmt}
    (first : Leads (runStmt rounds args statement) start .proceed middle)
    (rest : Leads (runStmts rounds args statements) middle flow final) :
    Leads (runStmts rounds args (statement :: statements)) start flow final := by
  intro state isStart
  obtain ⟨bindings, ran⟩ := first state isStart
  obtain ⟨bindings', ran'⟩ := rest { state with store := middle, bindings := bindings } rfl
  exact ⟨bindings', Returns.runStmts_cons ran ran'⟩

/-- A statement that does not proceed ends the sequence. -/
theorem Leads.cons_of_ne {statement : Stmt} {statements : List Stmt} (stops : flow ≠ .proceed)
    (first : Leads (runStmt rounds args statement) start flow final) :
    Leads (runStmts rounds args (statement :: statements)) start flow final := by
  intro state isStart
  obtain ⟨bindings, ran⟩ := first state isStart
  refine ⟨bindings, ?_⟩
  rw [runStmts]
  refine ran.bind ?_
  cases flow with
  | proceed => exact absurd rfl stops
  | exit => exact Returns.pure _ _
  | answer row => exact Returns.pure _ _

theorem Leads.append {first second : List Stmt} (ran : Leads (runStmts rounds args first) start .proceed middle)
    (rest : Leads (runStmts rounds args second) middle flow final) :
    Leads (runStmts rounds args (first ++ second)) start flow final := by
  intro state isStart
  obtain ⟨bindings, ran⟩ := ran state isStart
  obtain ⟨bindings', ran'⟩ := rest { state with store := middle, bindings := bindings } rfl
  exact ⟨bindings', ran.runStmts_append ran'⟩

theorem Leads.change (change : Store → Store) (start : Store) :
    Leads (modifyStore change) start .proceed (change start) := by
  rintro state rfl
  exact ⟨state.bindings, Returns.modifyStore change state⟩

theorem Leads.clear (relation : String) (start : Store) :
    Leads (runStmt rounds args (.clear relation)) start .proceed (start.clear relation) := by
  rw [runStmt]
  exact Leads.change _ start

theorem Leads.swap (left right : String) (start : Store) :
    Leads (runStmt rounds args (.swap left right)) start .proceed (start.swap left right) := by
  rw [runStmt]
  exact Leads.change _ start

theorem Leads.merge (source target : String) (start : Store) :
    Leads (runStmt rounds args (.merge source target)) start .proceed (start.merge source target) := by
  rw [runStmt]
  exact Leads.change _ start

theorem Leads.singleton {statement : Stmt} (leads : Leads (runStmt rounds args statement) start .proceed final) :
    Leads (runStmts rounds args [statement]) start .proceed final :=
  leads.cons (nil final)

end Leads

/-- The statements lead to a store, however many rounds are allowed from some number on. -/
def Ends (args : Row) (statements : List Stmt) (start final : Store) : Prop :=
  ∃ rounds, ∀ limit, rounds ≤ limit → Leads (runStmts limit args statements) start .proceed final

section Ends

variable {args : Row} {start middle final : Store}

theorem Ends.of_leads {statements : List Stmt}
    (leads : ∀ rounds, Leads (runStmts rounds args statements) start .proceed final) :
    Ends args statements start final :=
  ⟨0, fun limit _ => leads limit⟩

theorem Ends.append {first second : List Stmt} (ends : Ends args first start middle)
    (rest : Ends args second middle final) : Ends args (first ++ second) start final := by
  obtain ⟨rounds, ran⟩ := ends
  obtain ⟨rounds', ran'⟩ := rest
  refine ⟨max rounds rounds', fun limit enough => ?_⟩
  exact (ran limit (Nat.le_trans (Nat.le_max_left _ _) enough)).append
    (ran' limit (Nat.le_trans (Nat.le_max_right _ _) enough))

/-- A run agrees with where the statements end. -/
theorem Ends.eq_of_returns {statements : List Stmt} (ends : Ends args statements start final) {rounds : Nat}
    {state last : State} {flow : Flow} (isStart : state.store = start)
    (returns : Returns (runStmts rounds args statements) state flow last) :
    flow = .proceed ∧ ∃ bindings, last = { state with store := final, bindings := bindings } := by
  obtain ⟨limit, ran⟩ := ends
  have more := Returns.runStmts_mono (Nat.le_max_left rounds limit) args _ _ _ _ returns
  obtain ⟨bindings, leads⟩ := ran _ (Nat.le_max_right rounds limit) state isStart
  obtain ⟨isFlow, isLast⟩ := more.unique leads
  exact ⟨isFlow, bindings, isLast⟩

end Ends

theorem Returns.of_runStmts_append {first second : List Stmt} {rounds : Nat} {args : Row} {state last : State}
    {flow : Flow} (returns : Returns (runStmts rounds args (first ++ second)) state flow last) :
    ∃ flow' middle, Returns (runStmts rounds args first) state flow' middle ∧
      (flow' = .proceed → Returns (runStmts rounds args second) middle flow last) := by
  induction first generalizing state with
  | nil => exact ⟨.proceed, state, Returns.runStmts_nil, fun _ => returns⟩
  | cons statement statements ih =>
      rw [List.cons_append, runStmts] at returns
      obtain ⟨flow', between, head, tail⟩ := returns.of_bind
      cases flow' with
      | proceed =>
          obtain ⟨flow', middle, ran, rest⟩ := ih tail
          exact ⟨flow', middle, Returns.runStmts_cons head ran, rest⟩
      | exit =>
          refine ⟨.exit, between, ?_, fun proceeds => nomatch proceeds⟩
          rw [runStmts]
          exact head.bind (Returns.pure _ _)
      | answer row =>
          refine ⟨.answer row, between, ?_, fun proceeds => nomatch proceeds⟩
          rw [runStmts]
          exact head.bind (Returns.pure _ _)

/-- A sequence of one statement runs like the statement. -/
theorem runStmts_singleton (rounds : Nat) (args : Row) (statement : Stmt) :
    runStmts rounds args [statement] = runStmt rounds args statement := by
  rw [runStmts]
  conv => rhs; rw [← bind_pure (runStmt rounds args statement)]
  refine bind_congr fun flow => ?_
  cases flow with
  | proceed => rw [runStmts]
  | exit => rfl
  | answer row => rfl

/-- Statements that compute a relation between what stores stand for before and after. -/
structure Computes {α β : Type} (args : Row) (statements : List Stmt) (before : α → Store → Prop)
    (result : α → β → Prop) (after : β → Store → Prop) : Prop where
  ends : ∀ {value : α} {next : β} {start : Store}, before value start → result value next →
    ∃ final, after next final ∧ Ends args statements start final
  exists_result : ∀ {value : α} {rounds : Nat} {state last : State} {flow : Flow}, before value state.store →
    Returns (runStmts rounds args statements) state flow last → ∃ next, result value next

namespace Computes

variable {α β γ : Type} {args : Row} {before : α → Store → Prop} {between : β → Store → Prop}
variable {after : γ → Store → Prop}

/-- Statements without loops compute a function. -/
theorem of_leads {statements : List Stmt} {result : α → β}
    (leads : ∀ value start, before value start → ∃ final, between (result value) final ∧
      ∀ rounds, Leads (runStmts rounds args statements) start .proceed final) :
    Computes args statements before (fun value next => next = result value) between where
  ends := by
    rintro value _ start isBefore rfl
    obtain ⟨final, isAfter, ran⟩ := leads value start isBefore
    exact ⟨final, isAfter, Ends.of_leads ran⟩
  exists_result := fun {value} _ _ _ _ _ _ => ⟨result value, rfl⟩

theorem append {first second : List Stmt} {result : α → β → Prop} {onward : β → γ → Prop}
    (computes : Computes args first before result between) (rest : Computes args second between onward after) :
    Computes args (first ++ second) before
      (fun value last => ∃ next, result value next ∧ onward next last) after where
  ends := by
    rintro value last start isBefore ⟨next, isResult, isOnward⟩
    obtain ⟨middle, isBetween, ran⟩ := computes.ends isBefore isResult
    obtain ⟨final, isAfter, ran'⟩ := rest.ends isBetween isOnward
    exact ⟨final, isAfter, ran.append ran'⟩
  exists_result := by
    intro value rounds state last flow isBefore returns
    obtain ⟨flow', middle, ran, continues⟩ := returns.of_runStmts_append
    obtain ⟨next, isResult⟩ := computes.exists_result isBefore ran
    obtain ⟨store, isBetween, ends⟩ := computes.ends isBefore isResult
    obtain ⟨proceeds, bindings, rfl⟩ := ends.eq_of_returns rfl ran
    obtain ⟨final, isOnward⟩ := rest.exists_result isBetween (continues proceeds)
    exact ⟨final, next, isResult, isOnward⟩

theorem congr {statements : List Stmt} {result other : α → β → Prop}
    (computes : Computes args statements before result between)
    (same : ∀ value next, result value next ↔ other value next) :
    Computes args statements before other between := by
  have equal : result = other := by
    funext value next
    exact propext (same value next)
  rwa [← equal]

/-- One statement computes what other statements do if it runs like them. -/
theorem of_runStmt {statement : Stmt} {statements : List Stmt} {result : α → β → Prop}
    (same : ∀ rounds, runStmt rounds args statement = runStmts rounds args statements)
    (computes : Computes args statements before result between) :
    Computes args [statement] before result between where
  ends := by
    intro value next start isBefore isResult
    obtain ⟨final, isAfter, rounds, ends⟩ := computes.ends isBefore isResult
    refine ⟨final, isAfter, rounds, fun limit enough => ?_⟩
    rw [runStmts_singleton, same]
    exact ends limit enough
  exists_result := by
    intro value rounds state last flow isBefore returns
    rw [runStmts_singleton, same] at returns
    exact computes.exists_result isBefore returns

theorem sequence {statements : List Stmt} {result : α → β → Prop}
    (computes : Computes args statements before result between) :
    Computes args [.sequence statements] before result between :=
  of_runStmt (fun rounds => by rw [runStmt]) computes

variable {program : Ram.Program} {result : α → β → Prop}

theorem exists_finishes (computes : Computes [] [program.main.tree] before result between) {value : α} {next : β}
    {start : State} (isBefore : before value start.store) (isResult : result value next) :
    ∃ final, Finishes program start final ∧ between next final.store := by
  obtain ⟨store, isAfter, rounds, ends⟩ := computes.ends isBefore isResult
  obtain ⟨bindings, ran⟩ := ends rounds (Nat.le_refl _) { start with bindings := [] } rfl
  rw [runStmts_singleton] at ran
  refine ⟨{ start with store := store, bindings := bindings }, ⟨rounds, ?_⟩, isAfter⟩
  rw [runMain]
  exact (Returns.modify _ start).bind (ran.bind (Returns.pure () _))

/-- A program whose main statement computes a relation ends only with a result, in a store that stands for it. -/
theorem of_finishes (computes : Computes [] [program.main.tree] before result between) {value : α}
    {start final : State} (isBefore : before value start.store) (finishes : Finishes program start final) :
    ∃ next, result value next ∧ between next final.store := by
  obtain ⟨rounds, returns⟩ := id finishes
  obtain ⟨_, middle, forgot, rest⟩ := returns.of_bind
  obtain ⟨_, rfl⟩ := forgot.unique (Returns.modify _ start)
  obtain ⟨flow, last, ran, _⟩ := rest.of_bind
  rw [← runStmts_singleton] at ran
  have isStart : before value ({ start with bindings := [] } : State).store := isBefore
  obtain ⟨next, isResult⟩ := computes.exists_result isStart ran
  obtain ⟨other, alsoFinishes, isAfter⟩ := computes.exists_finishes isBefore isResult
  rw [finishes.unique alsoFinishes]
  exact ⟨next, isResult, isAfter⟩

end Computes

end DatalogRam.Machine
