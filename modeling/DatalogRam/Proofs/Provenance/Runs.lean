import DatalogRam.Proofs.Evaluation.Infos
import DatalogRam.Proofs.Lowering.StratumQueries
import DatalogRam.Proofs.Machine.Maintains

/-!
# Runs for provenance

Under provenance nothing is cleared between the strata, and the info relations are filled at the end. What the code
of each stratum leads on to, and insertions into other tables keep, holds after a run from the empty store.
-/

namespace DatalogRam.Lowering

open Machine Ram Analysis

variable {ordinal : String → Int64} {plan : Plan} {args : Row} {statement : Stmt}

/-! ## Between the rounds -/

section Tables

variable {program : Program} {name : Name}

theorem tables_apart (distinct : (tableNames program).Nodup)
    (declared : name ∈ program.relationNames) {part other : Part} (different : part ≠ other) :
    part.table name ≠ other.table name :=
  fun same => different (table_injective distinct declared declared same).1

theorem table_not_mem_tablesOf (distinct : (tableNames program).Nodup) (declared : name ∈ program.relationNames)
    {other : Name} (alsoDeclared : other ∈ program.relationNames) (different : other ≠ name) (part : Part) :
    part.table other ∉ tablesOf name := by
  intro member
  have single : part.table other = Part.full.table name ∨ part.table other = Part.delta.table name ∨
      part.table other = Part.fresh.table name := by
    simpa [tablesOf, Part.table] using member
  rcases single with same | same | same <;>
    exact different (table_injective distinct alsoDeclared declared same).2

/-- Between two rounds the new rows come to the relation and are the ones that the next round reads. -/
theorem rows_advanced (distinct : (tableNames program).Nodup) (declared : name ∈ program.relationNames)
    (store : Store) :
    (advanced name store).rows name.text = (store.rows name.text).union (store.rows (freshName name)) ∧
      (advanced name store).rows (deltaName name) = store.rows (freshName name) ∧
      (advanced name store).rows (freshName name) = .empty ∧
      ∀ table, table ∉ tablesOf name → (advanced name store).rows table = store.rows table := by
  have deltaFull : deltaName name ≠ name.text := @tables_apart _ name distinct declared .delta .full (by decide)
  have freshFull : freshName name ≠ name.text := @tables_apart _ name distinct declared .fresh .full (by decide)
  have deltaFresh : deltaName name ≠ freshName name := @tables_apart _ name distinct declared .delta .fresh (by decide)
  refine ⟨?_, ?_, ?_, fun table outside => ?_⟩
  · simp [advanced, Store.rows_clear, Store.rows_swap, Store.rows_merge, freshFull.symm, deltaFull.symm]
  · simp [advanced, Store.rows_clear, Store.rows_swap, Store.rows_merge, deltaFresh, freshFull]
  · simp [advanced, Store.rows_clear]
  · simp only [tablesOf, List.mem_cons, List.not_mem_nil, or_false, not_or] at outside
    simp [advanced, Store.rows_clear, Store.rows_swap, Store.rows_merge, outside]

theorem rows_cleared (distinct : (tableNames program).Nodup) (declared : name ∈ program.relationNames)
    (store : Store) :
    (cleared name store).rows name.text = store.rows name.text ∧
      (cleared name store).rows (deltaName name) = .empty ∧ (cleared name store).rows (freshName name) = .empty ∧
      ∀ table, table ∉ tablesOf name → (cleared name store).rows table = store.rows table := by
  have deltaFull : name.text ≠ deltaName name := @tables_apart _ name distinct declared .full .delta (by decide)
  have freshFull : name.text ≠ freshName name := @tables_apart _ name distinct declared .full .fresh (by decide)
  refine ⟨?_, ?_, ?_, fun table outside => ?_⟩
  · simp [cleared, Store.rows_clear, deltaFull, freshFull]
  · simp [cleared, Store.rows_clear]
  · simp [cleared, Store.rows_clear]
  · simp only [tablesOf, List.mem_cons, List.not_mem_nil, or_false, not_or] at outside
    simp [cleared, Store.rows_clear, outside]

end Tables

/-! ## Whole runs -/

theorem maintains_evaluation {holds : Nat → Store → Prop} (scheduled : plan.Scheduled)
    (strategy : plan.strategy = .provenance)
    (each : ∀ (position : Nat) (stratum : Stratum) (evaluation : Stmt),
      (strata plan.program)[position]? = some stratum → stratumCode ordinal plan stratum = some evaluation →
        Maintains args [evaluation] (holds position) (holds (position + 1)))
    (code : evaluationCode ordinal plan = some statement) :
    Maintains args [statement] (holds 0) (holds (strata plan.program).length) := by
  obtain ⟨steps, rfl, length, ofStratum⟩ := evaluationCode_eq_some code
  rw [scheduled.strata] at length ofStratum
  refine Maintains.sequence ?_
  have prefixes : ∀ count ≤ steps.length, Maintains args (steps.take count) (holds 0) (holds count) := by
    intro count
    induction count with
    | zero => exact fun _ => Maintains.nil (holds 0)
    | succ position ih =>
        intro within
        obtain ⟨evaluation, isEvaluation, isStep⟩ :=
          ofStratum position _ (List.getElem?_eq_getElem (length ▸ within))
        have first := each position _ evaluation (List.getElem?_eq_getElem (length ▸ within)) isEvaluation
        rw [strategy] at isStep
        rw [List.take_add_one, isStep]
        exact (ih (Nat.le_of_succ_le within)).append (first.append (Maintains.nil _).sequence).sequence
  have whole := prefixes steps.length (Nat.le_refl _)
  rwa [List.take_length, length] at whole

theorem maintains_infos {holds : Store → Prop}
    (apart : ∀ table ∈ infoTables plan.program, table ∉ tableNames plan.program)
    (insert : ∀ store table row, table ∉ tableNames plan.program → holds store → holds (store.insert table row))
    (code : infosCode ordinal plan = some statement) : Maintains args [statement] holds holds := by
  obtain ⟨queries, areQueries, rfl⟩ := Option.map_eq_some_iff.1 code
  exact (Maintains.of_leads fun start isStart => leads_infos apart args areQueries insert isStart).sequence

/-- What holds of the empty store and is led on by each stratum holds at the end of a run for provenance. -/
theorem of_recordedRun {program : Program} {debugInfo : Bool} {compiled : Ram.Program} {final : State}
    {holds : Nat → Store → Prop} (planned : Plan.of program .provenance debugInfo = .ok plan)
    (lowered : (lowerProgram program .provenance debugInfo).result = .ok compiled)
    (apart : ∀ table ∈ infoTables program, table ∉ tableNames program)
    (each : ∀ (position : Nat) (stratum : Stratum) (evaluation : Stmt),
      (strata program)[position]? = some stratum →
        stratumCode compiled.symbols.ordinal plan stratum = some evaluation →
          Maintains [] [evaluation] (holds position) (holds (position + 1)))
    (insert : ∀ position store table row, table ∉ tableNames program → holds position store →
      holds position (store.insert table row))
    (start : holds 0 .empty) (finishes : Finishes compiled (.start compiled .empty) final) :
    holds (strata program).length final.store := by
  obtain ⟨alsoPlan, evaluation, infos, alsoPlanned, isEvaluation, areInfos, main⟩ := codes_of_lowered lowered
  obtain rfl : plan = alsoPlan := by
    rw [planned] at alsoPlanned
    exact Except.ok.inj alsoPlanned
  obtain ⟨scheduled, rfl, strategy⟩ := scheduled_of planned
  have both := ((maintains_evaluation scheduled strategy each isEvaluation).append
    (maintains_infos apart (insert _) areInfos)).sequence
  rw [List.singleton_append, ← main] at both
  exact both.of_finishes start finishes

end DatalogRam.Lowering
