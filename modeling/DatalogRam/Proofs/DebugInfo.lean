import DatalogRam.Proofs.Lowering.Wrapping

/-!
# Debug info changes nothing but texts

A program may be lowered with the texts of its clauses around their queries. Either way it is refused with the same
error or lowered to the same tables, symbols and queries, and without its texts a statement of the one program is the
statement of the other. So the two programs run alike, whatever the store and however many rounds are allowed.
-/

namespace DatalogRam

open Lowering Machine Ram

variable {wrapped plain : Ram.Program}

/-- Programs of which the first one may have texts around its statements. They differ in nothing else. -/
structure Ram.Program.Wraps (wrapped plain : Ram.Program) : Prop where
  arena : wrapped.arena.SameQueries plain.arena
  tables : wrapped.tables = plain.tables
  symbols : wrapped.symbols = plain.symbols
  main : wrapped.main.Wraps plain.main
  subroutines : wrapped.subroutines.Wraps plain.subroutines

/-- Programs that run alike: they start alike, and from any state they end with the same result in the same state. -/
structure Ram.Program.RunsAlike (one other : Ram.Program) : Prop where
  start : ∀ store, State.start one store = State.start other store
  main : ∀ rounds, runMain one rounds = runMain other rounds
  subroutine : ∀ rounds name args, callSubroutine one rounds name args = callSubroutine other rounds name args

theorem Ram.Subroutines.Wraps.lookup {wrapped plain : Subroutines} (wraps : wrapped.Wraps plain) (name : String) :
    Option.Rel Subroutine.Wraps (wrapped.lookup name) (plain.lookup name) := by
  induction wraps with
  | nil => exact .none
  | @cons entry other rest rest' isEntry _ ih =>
      rw [List.lookup_cons, List.lookup_cons, ← isEntry.1]
      split
      · exact .some isEntry.2
      · exact ih

/-- A run does not see the texts. -/
theorem runStmt_of_wraps {statement other : Placed Stmt} (wraps : statement.Wraps other) (rounds : Nat) (args : Row) :
    runStmt rounds args statement.tree = runStmt rounds args other.tree := by
  rw [← runStmt_unwrapped, wraps]

theorem Ram.Program.Wraps.runsAlike (wraps : wrapped.Wraps plain) : wrapped.RunsAlike plain where
  start := by
    intro store
    rw [State.start, State.start, wraps.symbols]
  main := by
    intro rounds
    rw [runMain, runMain, runStmt_of_wraps wraps.main]
  subroutine := by
    intro rounds name args
    have found := wraps.subroutines.lookup name
    rw [callSubroutine, callSubroutine, Program.subroutine?, Program.subroutine?]
    generalize wrapped.subroutines.lookup name = one at found ⊢
    generalize plain.subroutines.lookup name = other at found ⊢
    cases found with
    | none => rfl
    | some same => simp only [same.parameters, runStmt_of_wraps same.body]

/-- The plan with texts is the annotated plan without. -/
theorem agreeing_plan (program : Program) (strategy : Strategy) :
    Agreeing (fun plan other => plan = other.annotated ∧ other.debugInfo = false) (Plan.of program strategy true)
      (Plan.of program strategy false) := by
  rw [Plan.of, Plan.of]
  cases Analysis.resolveTypes program.types with
  | error error => exact .error (LoweringError.type error)
  | ok kinds => exact .ok ⟨rfl, rfl⟩

theorem wraps_planned (program : Program) (strategy : Strategy) :
    SideBySide Draft.Matches Placed.Wraps
      (do
        let plan ← planProgram program strategy true
        lowerUnit plan)
      (do
        let plan ← planProgram program strategy false
        lowerUnit plan) := by
  have planned :
      SideBySide Draft.Matches (fun plan other => plan = other.annotated ∧ other.debugInfo = false)
        (planProgram program strategy true) (planProgram program strategy false) := by
    apply (blind_report _ _ _).before
    intro _
    have agreeing := agreeing_plan program strategy
    generalize Plan.of program strategy true = plan at agreeing ⊢
    generalize Plan.of program strategy false = other at agreeing ⊢
    cases agreeing with
    | error error => exact SideBySide.throw error
    | ok same =>
        obtain ⟨rfl, plain⟩ := same
        exact (blind_report _ _ _).before fun _ => SideBySide.pure ⟨rfl, plain⟩
  apply planned.bind
  rintro _ plan ⟨rfl, plain⟩
  exact wraps_unit plain

/-- With and without debug info a program is refused with the same error, or lowered to programs that differ in texts
around statements only and run alike. The same events are reported. -/
theorem lowerProgram_debugInfo (program : Program) (strategy : Strategy) :
    Agreeing (fun wrapped plain => wrapped.Wraps plain ∧ wrapped.RunsAlike plain)
        (lowerProgram program strategy true).result (lowerProgram program strategy false).result ∧
      (lowerProgram program strategy true).events = (lowerProgram program strategy false).events := by
  have start : Draft.empty.Matches Draft.empty := ⟨⟨rfl, rfl, rfl⟩, rfl, rfl, .nil, rfl⟩
  obtain ⟨agreeing, matched⟩ := wraps_planned program strategy .empty .empty start
  refine ⟨agreeing.map fun wrapped plain isMain => ?_, congrArg Array.toList matched.events⟩
  have wraps : Ram.Program.Wraps (Draft.finish _ wrapped) (Draft.finish _ plain) :=
    ⟨matched.arena, matched.tables, matched.symbols, isMain, matched.subroutines⟩
  exact ⟨wraps, wraps.runsAlike⟩

end DatalogRam
