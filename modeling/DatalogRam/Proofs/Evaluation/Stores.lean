import DatalogRam.Proofs.Evaluation.Layers
import DatalogRam.Proofs.Evaluation.Whole

/-!
# Stores before and after a run

Before a run only the tables of declared relations have rows. After it the tables of outputs have the facts that
the evaluation ends with.
-/

namespace DatalogRam.Lowering

open Machine Ram Analysis

/-- A store with rows of declared relations only, which have the declared arity and some more columns. -/
def HoldsDeclared (program : Program) (auxiliary : Nat) (store : Store) : Prop :=
  ∀ table, ∀ row ∈ store.rows table, ∃ relation ∈ program.relations,
    relation.name.text = table ∧ row.length = relation.arity + auxiliary

/-- The logical content of the tables of all declared relations. -/
def contentsOf (program : Program) (auxiliary : Nat) (store : Store) : Facts := fun name =>
  {row | name ∈ program.relationNames ∧ row ∈ content store name.text (arityOf program name) auxiliary}

variable {program : Program} {plan : Plan} {position : Nat} {facts : Facts} {store : Store} {relation : Relation}

theorem arityOf_of_mem (once : program.relationNames.Nodup) (member : relation ∈ program.relations) :
    arityOf program relation.name = relation.arity := by
  rw [arityOf, Program.relation?_of_mem once member]
  rfl

/-- Before a run, a row in a table of a declared relation is in the relation's own table. -/
theorem HoldsDeclared.own {auxiliary : Nat} (distinct : (tableNames program).Nodup)
    (holds : HoldsDeclared program auxiliary store) (part : Part) {name : Name}
    (declared : name ∈ program.relationNames) {row : Row} (member : row ∈ store.rows (part.table name)) :
    part = .full ∧ row.length = arityOf program name + auxiliary := by
  obtain ⟨relation, isRelation, same, length⟩ := holds _ row member
  have isDeclared : relation.name ∈ program.relationNames := List.mem_map.2 ⟨relation, isRelation, rfl⟩
  have isTable : part.table name = Part.full.table relation.name := same.symm
  obtain ⟨isFull, rfl⟩ := table_injective distinct declared isDeclared isTable
  exact ⟨isFull, by rw [arityOf_of_mem (relationNames_nodup distinct) isRelation, length]⟩

theorem atRest_start (distinct : (tableNames plan.program).Nodup)
    (holds : HoldsDeclared plan.program plan.auxiliary store) :
    AtRest plan 0 (contentsOf plan.program plan.auxiliary store) store := by
  constructor
  · exact fun part name declared _ row member => (holds.own distinct part declared member).2
  · intro part name declared _
    have empty {other : Part} (different : other ≠ .full) :
        content store (other.table name) (arityOf plan.program name) plan.auxiliary = ∅ := by
      rw [Set.eq_empty_iff_forall_notMem]
      rintro _ ⟨row, member, _⟩
      exact different (holds.own distinct other declared member).1
    cases part with
    | full =>
        ext row
        exact ⟨fun member => ⟨declared, member⟩, fun member => member.2⟩
    | delta => exact empty (by simp)
    | fresh => exact empty (by simp)

theorem live_of_output (once : program.relationNames.Nodup) (member : relation ∈ program.relations)
    (output : relation.hasQualifier .output = true) : Live program position .full relation.name := by
  refine Live.of_output ?_ .full
  rw [Analysis.isOutput, Program.relation?_of_mem once member]
  exact output

/-- The table of an output has what the evaluation ends with. -/
theorem content_of_output (distinct : (tableNames plan.program).Nodup) (atRest : AtRest plan position facts store)
    (member : relation ∈ plan.program.relations) (output : relation.hasQualifier .output = true) :
    content store relation.name.text relation.arity plan.auxiliary = facts relation.name := by
  have once := relationNames_nodup distinct
  have declared : relation.name ∈ plan.program.relationNames := List.mem_map.2 ⟨relation, member, rfl⟩
  rw [← arityOf_of_mem once member]
  exact atRest.same .full _ declared (live_of_output once member output)

/-- The rows of an output have its declared width. -/
theorem length_of_output (atRest : AtRest plan position facts store) (once : plan.program.relationNames.Nodup)
    (member : relation ∈ plan.program.relations) (output : relation.hasQualifier .output = true) :
    ∀ row ∈ store.rows relation.name.text, row.length = relation.arity + plan.auxiliary := by
  rw [← arityOf_of_mem once member]
  exact atRest.shaped .full _ (List.mem_map.2 ⟨relation, member, rfl⟩) (live_of_output once member output)

theorem content_eq_rows (atRest : AtRest plan position facts store) (noMore : plan.auxiliary = 0)
    (once : plan.program.relationNames.Nodup) (member : relation ∈ plan.program.relations)
    (output : relation.hasQualifier .output = true) :
    content store relation.name.text relation.arity 0 = {row | row ∈ store.rows relation.name.text} := by
  apply content_of_shaped
  have shaped := length_of_output atRest once member output
  rwa [noMore] at shaped

/-- All rows of the table of an output are wide enough to have a logical part. -/
theorem content_eq_take (atRest : AtRest plan position facts store) (once : plan.program.relationNames.Nodup)
    (member : relation ∈ plan.program.relations) (output : relation.hasQualifier .output = true) :
    content store relation.name.text relation.arity plan.auxiliary =
      {row | ∃ full ∈ store.rows relation.name.text, full.take relation.arity = row} := by
  ext row
  exact exists_congr fun full => and_congr_right fun inTable =>
    and_iff_right (length_of_output atRest once member output full inTable)

/-- A store with some edges. -/
def edges : Store :=
  Store.empty.put "edge" ⟨[[1, 2], [2, 3]], by decide⟩

theorem holdsDeclared_edges : HoldsDeclared reachability 0 edges := by
  intro table row member
  rw [edges, Store.rows_put] at member
  split at member
  · next isEdge =>
      refine ⟨reachability.relations[0], by decide, isEdge.symm, ?_⟩
      have two : ∀ row ∈ ([[1, 2], [2, 3]] : List Row), row.length = 2 := by decide
      exact two row member
  · cases member

end DatalogRam.Lowering
