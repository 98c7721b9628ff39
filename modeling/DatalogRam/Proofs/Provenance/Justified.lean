import DatalogRam.Proofs.Evaluation.Regular
import DatalogRam.Proofs.Evaluation.Stores

/-!
# Justified rows

A row is justified if a clause derives it from rows that are stored. While a stratum is evaluated, the tables of
its relations only grow and those of the earlier ones stay as they are. So the rows that justify another one are
still there afterwards, and what has been negated still fails.
-/

namespace DatalogRam.Lowering

open Machine Ram Analysis

variable (ordinal : String → Int64) (plan : Plan)

/-- A clause of the relation derives the row from stored rows. -/
def Justified (store : Store) (name : Name) (row : Row) : Prop :=
  ∃ clause id rows, plan.program.clauses[id]? = some clause ∧ clause.head.relation = name ∧
    Fires ordinal plan clause .complete store rows ∧ row = derivedRow ordinal plan clause id rows

/-- Relations of a stratum have more rows, and all other relations have the same rows. -/
structure Grows (position : Nat) (start final : Store) : Prop where
  kept : ∀ name ∈ plan.program.relationNames, ∀ row ∈ start.rows name.text, row ∈ final.rows name.text
  same : ∀ name ∈ plan.program.relationNames, ¬InStratum plan.program position name →
    final.rows name.text = start.rows name.text

/-- All rows are justified, belong to early strata, and are stored in the relation before a round reads them. -/
structure Explained (limit : Nat) (store : Store) : Prop where
  justified : ∀ part, ∀ name ∈ plan.program.relationNames, ∀ row ∈ store.rows (Part.table part name),
    Justified ordinal plan store name row
  early : ∀ part, ∀ name ∈ plan.program.relationNames, ∀ row ∈ store.rows (Part.table part name),
    ∃ position < limit, InStratum plan.program position name
  stored : ∀ name ∈ plan.program.relationNames, ∀ row ∈ store.rows (deltaName name), row ∈ store.rows name.text

variable {ordinal plan} {clause : Clause} {id position limit : Nat} {version : Version} {start final store : Store}
variable {name : Name} {row : Row} {rows : List Row}

/-- A clause of an early stratum negates nothing of a later one. -/
theorem not_inStratum_of_early (regular : plan.program.Regular) (isClause : clause ∈ plan.program.clauses)
    {earlier : Nat} (inside : InStratum plan.program earlier clause.head.relation) (isEarly : earlier ≤ position)
    {atom : Atom} (member : atom ∈ clause.negatedAtoms) : ¬InStratum plan.program position atom.relation := by
  intro alsoInside
  have reads := Clause.reads_of_negated member
  have lower : position ≤ earlier := inside.le_of_readsThrough regular.once alsoInside
    (.single ⟨alsoInside.declared, clause, isClause, rfl, reads⟩)
  obtain rfl : earlier = position := by omega
  exact not_inStratum_of_negated regular isClause inside member alsoInside

/-- What fires in an early stratum still does after a later one has grown. -/
theorem Fires.grow (regular : plan.program.Regular) (isClause : clause ∈ plan.program.clauses) {earlier : Nat}
    (inside : InStratum plan.program earlier clause.head.relation) (isEarly : earlier ≤ position)
    (grows : Grows plan position start final) (fires : Fires ordinal plan clause .complete start rows) :
    Fires ordinal plan clause .complete final rows := by
  have declared := regular.declared clause isClause
  refine ⟨fires.length, fun index row isRow => ?_, fun literal member => ?_⟩
  · obtain ⟨atom, atIndex, inTable, isMatch⟩ := fires.selected index row isRow
    have isDeclared := (declared atom (Clause.positive_mem_atoms (List.mem_of_getElem? atIndex))).1
    exact ⟨atom, atIndex, grows.kept _ isDeclared row inTable, isMatch⟩
  · refine (Passes.congr ?_).2 (fires.passes literal member)
    rintro relation args rfl
    have isAtom : (⟨relation, args⟩ : Atom) ∈ clause.negatedAtoms := Clause.mem_negatedAtoms.2 member
    exact grows.same relation (declared _ (Clause.negated_mem_atoms isAtom)).1
      (not_inStratum_of_early regular isClause inside isEarly isAtom)

theorem Justified.grow (regular : plan.program.Regular) {earlier : Nat}
    (inside : InStratum plan.program earlier name) (isEarly : earlier ≤ position)
    (grows : Grows plan position start final) (justified : Justified ordinal plan start name row) :
    Justified ordinal plan final name row := by
  obtain ⟨clause, id, rows, atId, rfl, fires, isRow⟩ := justified
  exact ⟨clause, id, rows, atId, rfl, fires.grow regular (List.mem_of_getElem? atId) inside isEarly grows, isRow⟩

/-- A justified row has the declared arity and the bookkeeping columns. -/
theorem Justified.length (regular : plan.program.Regular) (justified : Justified ordinal plan store name row) :
    row.length = arityOf plan.program name + plan.auxiliary := by
  obtain ⟨clause, id, rows, atId, rfl, _, rfl⟩ := justified
  rw [length_derivedRow, (regular.declared clause (List.mem_of_getElem? atId) _ clause.head_mem_atoms).2]

/-- What fires on the rows of a round fires on those of the relations. -/
theorem Fires.complete (declared : Clause.Declared plan.program clause)
    (stored : ∀ name ∈ plan.program.relationNames, ∀ row ∈ store.rows (deltaName name), row ∈ store.rows name.text)
    (fires : Fires ordinal plan clause version store rows) : Fires ordinal plan clause .complete store rows := by
  refine ⟨fires.length, fun index row isRow => ?_, fires.passes⟩
  obtain ⟨atom, atIndex, inTable, isMatch⟩ := fires.selected index row isRow
  have isDeclared := (declared atom (Clause.positive_mem_atoms (List.mem_of_getElem? atIndex))).1
  refine ⟨atom, atIndex, ?_, isMatch⟩
  rw [Version.source] at inTable
  split at inTable
  · exact stored _ isDeclared row inTable
  · exact inTable

namespace Explained

theorem empty : Explained ordinal plan limit .empty where
  justified := fun _ _ _ row member => absurd member (Rows.not_mem_empty row)
  early := fun _ _ _ row member => absurd member (Rows.not_mem_empty row)
  stored := fun _ _ row member => absurd member (Rows.not_mem_empty row)

theorem mono (explained : Explained ordinal plan limit store) {later : Nat} (isLater : limit ≤ later) :
    Explained ordinal plan later store where
  justified := explained.justified
  early := by
    intro part name declared row member
    obtain ⟨position, isEarly, inside⟩ := explained.early part name declared row member
    exact ⟨position, by omega, inside⟩
  stored := explained.stored

/-- Rows stay explained if a late stratum grows, and every new row was there in another table of its relation or
has been derived. -/
theorem step (regular : plan.program.Regular) (explained : Explained ordinal plan limit start)
    (isLate : limit ≤ position + 1) (grows : Grows plan position start final)
    (rows : ∀ part, ∀ name ∈ plan.program.relationNames, ∀ row ∈ final.rows (Part.table part name),
      (∃ other, row ∈ start.rows (Part.table other name)) ∨
        Justified ordinal plan start name row ∧ position < limit ∧ InStratum plan.program position name)
    (stored : ∀ name ∈ plan.program.relationNames, ∀ row ∈ final.rows (deltaName name),
      row ∈ final.rows name.text) :
    Explained ordinal plan limit final := by
  have known : ∀ part, ∀ name ∈ plan.program.relationNames, ∀ row ∈ final.rows (Part.table part name),
      Justified ordinal plan start name row ∧ ∃ earlier < limit, InStratum plan.program earlier name := by
    intro part name declared row member
    rcases rows part name declared row member with ⟨other, before⟩ | ⟨justified, isEarly, inside⟩
    · exact ⟨explained.justified other name declared row before, explained.early other name declared row before⟩
    · exact ⟨justified, position, isEarly, inside⟩
  refine ⟨fun part name declared row member => ?_, fun part name declared row member => ?_, stored⟩
  · obtain ⟨justified, earlier, isEarly, inside⟩ := known part name declared row member
    exact justified.grow regular inside (by omega) grows
  · exact (known part name declared row member).2

/-- The rows of a query's target are old ones or derived. -/
theorem queried (regular : plan.program.Regular) (atId : plan.program.clauses[id]? = some clause)
    (inside : InStratum plan.program position clause.head.relation)
    (explained : Explained ordinal plan (position + 1) start)
    (queried : Queried ordinal plan clause id version start final) :
    Explained ordinal plan (position + 1) final := by
  have declared := regular.declared clause (List.mem_of_getElem? atId)
  have others := queried.others
  have kept := queried.kept
  have added := queried.added
  rw [Version.target_eq] at others kept added
  have apart {part : Part} {name : Name} (isDeclared : name ∈ plan.program.relationNames)
      (same : part.table name = version.part.table clause.head.relation) :
      part = version.part ∧ name = clause.head.relation :=
    table_injective regular.distinct isDeclared inside.declared same
  have grows : Grows plan position start final := by
    refine ⟨fun name isDeclared row member => ?_, fun name isDeclared outside => others _ fun same => ?_⟩
    · by_cases same : name.text = version.part.table clause.head.relation
      · rw [same] at member ⊢
        exact kept row member
      · rwa [others _ same]
    · have both : Part.full = version.part ∧ name = clause.head.relation := apart isDeclared same
      exact outside (both.2 ▸ inside)
  refine explained.step regular (Nat.le_refl _) grows (fun part name isDeclared row member => ?_)
    fun name isDeclared row member => ?_
  · by_cases same : part.table name = version.part.table clause.head.relation
    · obtain ⟨rfl, rfl⟩ := apart isDeclared same
      rcases added row member with before | ⟨rows, fires, isRow, _⟩
      · exact .inl ⟨_, before⟩
      · exact .inr ⟨⟨clause, id, rows, atId, rfl, fires.complete declared explained.stored, isRow⟩,
          Nat.lt_succ_self _, inside⟩
    · rw [others _ same] at member
      exact .inl ⟨part, member⟩
  · have different : deltaName name ≠ version.part.table clause.head.relation := by
      intro same
      have both : Part.delta = version.part ∧ name = clause.head.relation := apart isDeclared same
      have isPart := both.1
      rw [Version.part] at isPart
      split at isPart <;> cases isPart
    rw [others _ different] at member
    exact grows.kept name isDeclared row (explained.stored name isDeclared row member)

/-- A change to other tables than those of declared relations explains as much as before. -/
theorem congr (regular : plan.program.Regular) (explained : Explained ordinal plan limit start)
    (same : ∀ (part : Part), ∀ name ∈ plan.program.relationNames,
      final.rows (part.table name) = start.rows (part.table name)) :
    Explained ordinal plan limit final := by
  have grows : Grows plan limit start final :=
    ⟨fun name declared row member => (same .full name declared).symm ▸ member,
      fun name declared _ => same .full name declared⟩
  refine explained.step regular (Nat.le_succ limit) grows (fun part name declared row member => ?_)
    fun name declared row member => ?_
  · exact .inl ⟨part, same part name declared ▸ member⟩
  · have before : row ∈ start.rows (deltaName name) := same .delta name declared ▸ member
    exact grows.kept name declared row (explained.stored name declared row before)

end Explained

end DatalogRam.Lowering
