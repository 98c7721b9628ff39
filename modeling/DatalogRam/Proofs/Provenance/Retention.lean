import DatalogRam.Proofs.Lowering.StoreChanges
import DatalogRam.Proofs.Provenance.Repetitions

/-!
# Nothing is forgotten under provenance

Under provenance no change takes a row from a declared relation or an info relation. Rows are taken away only from
the tables for rounds, which look like relations but have names of their own.
-/

namespace DatalogRam

open Lowering Machine Ram

/-- The tables of the declared relations and of the descriptions of rules. -/
def lastingTables (program : Program) : List String :=
  program.relationNames.map Name.text ++ infoTables program

variable {program : Program} {change : Change} {table : String}

/-- A table for rounds is no lasting one. -/
theorem not_mem_lastingTables (distinct : (tableNames program ++ infoTables program).Nodup) {part : Part}
    (isRounds : part ≠ .full) {name : Name} (declared : name ∈ program.relationNames) :
    part.table name ∉ lastingTables program := by
  obtain ⟨distinct, _, apart⟩ := List.nodup_append.1 distinct
  intro member
  rcases List.mem_append.1 member with isRelation | isInfo
  · obtain ⟨other, alsoDeclared, same⟩ := List.mem_map.1 isRelation
    have same : part.table name = Part.full.table other := same.symm
    exact isRounds (table_injective distinct declared alsoDeclared same).1
  · exact apart _ (part.mem_tableNames declared) _ isInfo rfl

/-- What a change takes rows from is a table for rounds. -/
theorem displaced_of_allowed (isAllowed : EvaluationChange program.relationNames change ∨ InfoChange program change)
    (taken : table ∈ change.displaced) :
    ∃ name ∈ program.relationNames, table = deltaName name ∨ table = freshName name := by
  rcases isAllowed with isEvaluation | describes
  · exact isEvaluation.displaced taken
  · cases describes
    cases taken

/-- No single change takes a row from a lasting table. -/
theorem mem_lasting_after (distinct : (tableNames program ++ infoTables program).Nodup)
    (isAllowed : EvaluationChange program.relationNames change ∨ InfoChange program change)
    (isLasting : table ∈ lastingTables program) {store : Store} {row : Row} (member : row ∈ store.rows table) :
    row ∈ (change.apply store).rows table := by
  refine Change.mem_rows_apply (fun taken => ?_) member
  obtain ⟨name, declared, rfl | rfl⟩ := displaced_of_allowed isAllowed taken
  · exact @not_mem_lastingTables _ distinct .delta (by decide) name declared isLasting
  · exact @not_mem_lastingTables _ distinct .fresh (by decide) name declared isLasting

variable {debugInfo : Bool} {compiled : Ram.Program}

/-- Whatever the store is at the start, and however long a run goes on and however it ends, the same run with a history
tells all changes of the store, one after another. None of them takes a row from a lasting table, and only the tables
for rounds are cleared or exchanged. -/
theorem provenance_forgets_nothing (distinct : (tableNames program ++ infoTables program).Nodup)
    (lowered : (lowerProgram program .provenance debugInfo).result = .ok compiled) (store : Store) (rounds : Nat) :
    (logMain compiled rounds).run.run (.start compiled store, []) =
        (((runMain compiled rounds).run.run (.start compiled store)).1,
          ((runMain compiled rounds).run.run (.start compiled store)).2,
          history compiled rounds (.start compiled store)) ∧
      ((runMain compiled rounds).run.run (.start compiled store)).2.store =
        store.after (history compiled rounds (.start compiled store)) ∧
      ∀ before change rest, history compiled rounds (.start compiled store) = before ++ change :: rest →
        (∀ table ∈ lastingTables program, ∀ row ∈ (store.after before).rows table,
            row ∈ (store.after (before ++ [change])).rows table) ∧
          ∀ table ∈ change.displaced,
            ∃ name ∈ program.relationNames, table = deltaName name ∨ table = freshName name := by
  obtain ⟨isRun, isStore, areAllowed⟩ := history_spec (allows_lowered lowered) rounds (.start compiled store)
  refine ⟨isRun, isStore, fun before change rest parts => ?_⟩
  have isAllowed := areAllowed change (parts ▸ List.mem_append_right _ List.mem_cons_self)
  refine ⟨fun table isLasting row member => ?_, fun table taken => displaced_of_allowed isAllowed taken⟩
  rw [Store.after_append]
  exact mem_lasting_after distinct isAllowed isLasting member

theorem twoWays_forgets_nothing :
    (tableNames twoWays ++ infoTables twoWays).Nodup ∧
      (lowerProgram twoWays .provenance false).result = .ok recordedTwoWays ∧
      ∀ before change rest,
        history recordedTwoWays 3 (.start recordedTwoWays .empty) = before ++ change :: rest →
          (∀ table ∈ lastingTables twoWays, ∀ row ∈ (Store.empty.after before).rows table,
            row ∈ (Store.empty.after (before ++ [change])).rows table) ∧
          ∀ table ∈ change.displaced,
            ∃ name ∈ twoWays.relationNames, table = deltaName name ∨ table = freshName name :=
  ⟨guardable_twoWays.tables, lowered_twoWays,
    (provenance_forgets_nothing guardable_twoWays.tables lowered_twoWays .empty 3).2.2⟩

end DatalogRam
