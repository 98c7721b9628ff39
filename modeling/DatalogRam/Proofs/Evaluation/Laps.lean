import DatalogRam.Proofs.Datalog.Naive
import DatalogRam.Proofs.Evaluation.Layers

/-!
# The laps of a loop

A lap is a run of the body of a loop that comes to its end. The body of a stratum's loop makes one naive round: if the
round adds something, it comes to its end, and otherwise the loop is left. So there are as many laps as there are naive
rounds that add something.
-/

namespace DatalogRam

open Machine Ram

namespace Machine

/-- Runs of the body of a loop one after another, each of which comes to its end. -/
inductive Laps (body : Exec Flow) (start : State) : Nat → State → Prop
  | none : Laps body start 0 start
  | next {count : Nat} {state last : State} (laps : Laps body start count state)
      (returns : Returns body state .proceed last) : Laps body start (count + 1) last

namespace Laps

/-- A loop goes on from where some laps have ended. -/
theorem repeatBody {body : Exec Flow} {start last final : State} {count more : Nat} {flow : Flow}
    (laps : Laps body start count last) (returns : Returns (repeatBody body more) last flow final) :
    Returns (repeatBody body (count + more)) start flow final := by
  induction laps generalizing more with
  | none => rwa [Nat.zero_add]
  | @next count state last _ lap ih =>
      rw [Nat.add_right_comm, Nat.add_assoc]
      apply ih
      rw [Machine.repeatBody]
      exact lap.bind returns

end Laps

end Machine

namespace Lowering

open Analysis

variable {ordinal : String → Int64} {plan : Plan} {stratum : Stratum} {position : Nat} {tracked : Part → Name → Prop}
variable {facts : Facts} {queries : List (List Stmt)} {count rounds : Nat} {args : Row}

/-- The stores after some laps, if semi-naive evaluation starts with some facts. -/
def AfterRounds (ordinal : String → Int64) (plan : Plan) (stratum : Stratum) (tracked : Part → Name → Prop)
    (facts : Facts) (count : Nat) (store : Store) : Prop :=
  let (full, delta) := Component.rounds ordinal (componentOf plan.program stratum) facts count
  Represents plan.program plan.auxiliary tracked store (.of full delta Facts.none)

section Step

variable (regular : plan.program.RegularIn stratum) (noEquivalence : plan.program.NoEquivalence)
  (found : (strata plan.program)[position]? = some stratum) (followed : Followed plan.program stratum tracked)
  (codes : (roundQueries plan stratum.relations).mapM (Query.code ordinal plan) = some queries.flatten)

include regular noEquivalence found followed codes

/-- The body makes a naive round, and finds out whether it is the last one. -/
theorem leads_lap (args : Row) {start : Store} (isStart : AfterRounds ordinal plan stratum tracked facts count start) :
    (Component.naive ordinal (componentOf plan.program stratum).recursive facts (count + 1) =
          Component.naive ordinal (componentOf plan.program stratum).recursive facts count →
        ∃ final, AfterRounds ordinal plan stratum tracked facts count final ∧
          ∀ rounds, Leads (runStmt rounds args (roundCode stratum.relations queries)) start .exit final) ∧
      (Component.naive ordinal (componentOf plan.program stratum).recursive facts (count + 1) ≠
          Component.naive ordinal (componentOf plan.program stratum).recursive facts count →
        ∃ final, AfterRounds ordinal plan stratum tracked facts (count + 1) final ∧
          ∀ rounds, Leads (runStmt rounds args (roundCode stratum.relations queries)) start .proceed final) := by
  have proper := proper_componentOf regular noEquivalence found
  have quiet_iff := @Component.quiet_rounds_iff ordinal _ facts proper count
  have outside := (@Component.progress_rounds ordinal _ facts proper count).2.own
  constructor
  · intro stable
    exact leads_exit regular followed args found codes isStart (quiet_iff.2 stable)
  · intro unstable
    exact leads_round regular followed args found codes isStart outside fun quiet => unstable (quiet_iff.1 quiet)

theorem afterRounds_of_laps {start last : State}
    (isStart : AfterRounds ordinal plan stratum tracked facts 0 start.store)
    (laps : Laps (runStmt rounds args (roundCode stratum.relations queries)) start count last) :
    AfterRounds ordinal plan stratum tracked facts count last.store := by
  induction laps with
  | none => exact isStart
  | @next count state last _ returns ih =>
      obtain ⟨exits, proceeds⟩ := leads_lap regular noEquivalence found followed codes args ih
      by_cases stable : Component.naive ordinal (componentOf plan.program stratum).recursive facts (count + 1) =
          Component.naive ordinal (componentOf plan.program stratum).recursive facts count
      · obtain ⟨final, _, leads⟩ := exits stable
        obtain ⟨_, ran⟩ := leads rounds state rfl
        cases (returns.unique ran).1
      · obtain ⟨final, isFinal, leads⟩ := proceeds stable
        obtain ⟨_, ran⟩ := leads rounds state rfl
        rw [(returns.unique ran).2]
        exact isFinal

/-- There are as many laps as there are naive rounds that add something. -/
theorem exists_laps {start : State} (isStart : AfterRounds ordinal plan stratum tracked facts 0 start.store)
    (unstable : ∀ earlier < count,
      Component.naive ordinal (componentOf plan.program stratum).recursive facts (earlier + 1) ≠
        Component.naive ordinal (componentOf plan.program stratum).recursive facts earlier) :
    ∃ last, Laps (runStmt rounds args (roundCode stratum.relations queries)) start count last := by
  induction count with
  | zero => exact ⟨start, .none⟩
  | succ count ih =>
      obtain ⟨state, laps⟩ := ih fun earlier before => unstable earlier (Nat.lt_succ_of_lt before)
      have isState := afterRounds_of_laps regular noEquivalence found followed codes isStart laps
      obtain ⟨final, _, leads⟩ :=
        (leads_lap regular noEquivalence found followed codes args isState).2 (unstable count (Nat.lt_succ_self count))
      obtain ⟨_, ran⟩ := leads rounds state rfl
      exact ⟨_, laps.next ran⟩

end Step

end Lowering

end DatalogRam
