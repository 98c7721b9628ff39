import Mathlib.Data.List.Nodup
import Mathlib.Data.List.Pairwise
import DatalogRam.Proofs.Query.Derivation

/-!
# Stores and logical contents

Every declared relation has three tables: its own and two for rounds. `Represents` says which logical contents
they have, and the lemmas after it how each machine operation on tables changes these contents.
-/

namespace DatalogRam.Lowering

open Machine Ram

/-- What a table of a relation is for. -/
inductive Part where
  | full
  | delta
  | fresh
  deriving DecidableEq

/-- The table of a relation for some part. -/
def Part.table : Part → Name → String
  | full, name => name.text
  | delta, name => deltaName name
  | fresh, name => freshName name

/-- The tables of a relation. -/
def tablesOf (name : Name) : List String :=
  [name.text, deltaName name, freshName name]

/-- The names of the tables of all declared relations. -/
def tableNames (program : Program) : List String :=
  program.relationNames.flatMap tablesOf

/-- The arity with which a relation is declared. -/
def arityOf (program : Program) (name : Name) : Nat :=
  ((program.relation? name).map Relation.arity).getD 0

variable {program : Program}

theorem Part.table_mem (part : Part) (name : Name) :
    part.table name ∈ tablesOf name := by
  cases part <;> simp [Part.table, tablesOf]

/-- Distinct names of tables tell relations and parts apart. -/
theorem table_injective (distinct : (tableNames program).Nodup) {part other : Part} {name more : Name}
    (declared : name ∈ program.relationNames) (alsoDeclared : more ∈ program.relationNames)
    (same : part.table name = other.table more) : part = other ∧ name = more := by
  rw [tableNames, List.nodup_flatMap] at distinct
  obtain ⟨each, apart⟩ := distinct
  have sameName : name = more := by
    refine Decidable.byContradiction fun different => ?_
    have symmetric : Std.Symm (Function.onFun List.Disjoint tablesOf) :=
      ⟨fun _ _ disjoint _ first second => disjoint second first⟩
    have disjoint := apart.forall declared alsoDeclared different
    exact disjoint (part.table_mem name) (same ▸ other.table_mem more)
  subst sameName
  have three := each name declared
  simp only [tablesOf, List.nodup_cons, List.mem_cons, List.not_mem_nil, or_false, not_or] at three
  refine ⟨?_, rfl⟩
  cases part <;> cases other <;> simp only [Part.table] at same ⊢ <;> grind

theorem relationNames_nodup (distinct : (tableNames program).Nodup) : program.relationNames.Nodup := by
  rw [tableNames, List.nodup_flatMap] at distinct
  refine distinct.2.imp fun disjoint same => ?_
  subst same
  exact disjoint List.mem_cons_self List.mem_cons_self

/-- The logical contents of all tables. -/
abbrev Contents := Part → Facts

/-- Contents that differ in one table. -/
def Contents.set (contents : Contents) (part : Part) (name : Name) (rows : Set Row) : Contents :=
  fun other more => if other = part ∧ more = name then rows else contents other more

theorem Contents.set_same (contents : Contents) (part : Part) (name : Name) (rows : Set Row) :
    contents.set part name rows part name = rows := by
  rw [Contents.set, if_pos ⟨rfl, rfl⟩]

theorem Contents.set_other (contents : Contents) {part other : Part} {name more : Name} (rows : Set Row)
    (different : ¬(other = part ∧ more = name)) : contents.set part name rows other more = contents other more := by
  rw [Contents.set, if_neg different]

/-- The tables that are followed have some logical contents, in rows of the declared arity. -/
structure Represents (program : Program) (auxiliary : Nat) (tracked : Part → Name → Prop) (store : Store)
    (contents : Contents) : Prop where
  shaped : ∀ (part : Part) (name : Name), name ∈ program.relationNames → tracked part name →
    ∀ row ∈ store.rows (part.table name), row.length = arityOf program name + auxiliary
  same : ∀ (part : Part) (name : Name), name ∈ program.relationNames → tracked part name →
    content store (part.table name) (arityOf program name) auxiliary = contents part name

variable {auxiliary : Nat} {tracked : Part → Name → Prop} {store later : Store} {contents : Contents}
variable {part other : Part} {name : Name}

/-- Without bookkeeping columns the logical content of a table is its rows. -/
theorem content_of_shaped {table : String} {arity : Nat} (shaped : ∀ row ∈ store.rows table, row.length = arity) :
    content store table arity 0 = {row | row ∈ store.rows table} := by
  ext row
  constructor
  · rintro ⟨full, inTable, _, rfl⟩
    rwa [List.take_of_length_le (Nat.le_of_eq (shaped full inTable))]
  · intro inTable
    exact ⟨row, inTable, shaped row inTable, List.take_of_length_le (Nat.le_of_eq (shaped row inTable))⟩

theorem Represents.rows_eq (represents : Represents program 0 tracked store contents) (part : Part)
    (declared : name ∈ program.relationNames) (isTracked : tracked part name) :
    {row | row ∈ store.rows (part.table name)} = contents part name := by
  rw [← represents.same part name declared isTracked]
  exact (content_of_shaped (represents.shaped part name declared isTracked)).symm

/-- Fewer tables are followed. -/
theorem Represents.mono {fewer : Part → Name → Prop} (represents : Represents program auxiliary tracked store contents)
    (less : ∀ part name, fewer part name → tracked part name) :
    Represents program auxiliary fewer store contents where
  shaped := fun part name declared isTracked => represents.shaped part name declared (less part name isTracked)
  same := fun part name declared isTracked => represents.same part name declared (less part name isTracked)

/-- One table changes. -/
theorem Represents.update (distinct : (tableNames program).Nodup)
    (represents : Represents program auxiliary tracked store contents) (declared : name ∈ program.relationNames)
    (others : ∀ table, table ≠ part.table name → later.rows table = store.rows table)
    (shaped : tracked part name → ∀ row ∈ later.rows (part.table name), row.length = arityOf program name + auxiliary)
    {rows : Set Row}
    (isContent : tracked part name →
      content later (part.table name) (arityOf program name) auxiliary = rows) :
    Represents program auxiliary tracked later (contents.set part name rows) := by
  have apart {other : Part} {more : Name} (alsoDeclared : more ∈ program.relationNames)
      (different : ¬(other = part ∧ more = name)) : other.table more ≠ part.table name :=
    fun same => different (table_injective distinct alsoDeclared declared same)
  constructor
  · intro other more alsoDeclared isTracked row member
    by_cases same : other = part ∧ more = name
    · obtain ⟨rfl, rfl⟩ := same
      exact shaped isTracked row member
    · rw [others _ (apart alsoDeclared same)] at member
      exact represents.shaped other more alsoDeclared isTracked row member
  · intro other more alsoDeclared isTracked
    by_cases same : other = part ∧ more = name
    · obtain ⟨rfl, rfl⟩ := same
      rw [Contents.set_same]
      exact isContent isTracked
    · rw [Contents.set_other _ _ same, content_congr (others _ (apart alsoDeclared same))]
      exact represents.same other more alsoDeclared isTracked

theorem Represents.clear (part : Part) (distinct : (tableNames program).Nodup)
    (represents : Represents program auxiliary tracked store contents)
    (declared : name ∈ program.relationNames) :
    Represents program auxiliary tracked (store.clear (part.table name)) (contents.set part name ∅) := by
  refine represents.update distinct declared (fun table other => ?_) (fun _ row member => ?_) fun _ => ?_
  · rw [Store.rows_clear, if_neg other]
  · rw [Store.rows_clear, if_pos rfl] at member
    exact absurd member (Rows.not_mem_empty row)
  · simp [content, Store.rows_clear]

/-- A table that is not followed may be cleared. -/
theorem Represents.drop (part : Part) (distinct : (tableNames program).Nodup)
    (represents : Represents program auxiliary tracked store contents) (declared : name ∈ program.relationNames)
    (dropped : ¬tracked part name) :
    Represents program auxiliary tracked (store.clear (part.table name)) contents := by
  have cleared : Represents program auxiliary tracked (store.clear (part.table name))
      (contents.set part name (contents part name)) := by
    refine represents.update distinct declared (fun table other => ?_) (fun isTracked => absurd isTracked dropped)
      fun isTracked => absurd isTracked dropped
    rw [Store.rows_clear, if_neg other]
  have same : contents.set part name (contents part name) = contents := by
    funext other more
    rw [Contents.set]
    split
    · next equal => rw [equal.1, equal.2]
    · rfl
  rwa [same] at cleared

theorem Represents.merge (part other : Part) (distinct : (tableNames program).Nodup)
    (represents : Represents program auxiliary tracked store contents) (declared : name ∈ program.relationNames)
    (isTracked : tracked part name) :
    Represents program auxiliary tracked (store.merge (part.table name) (other.table name))
      (contents.set other name (contents other name ∪ contents part name)) := by
  refine represents.update distinct declared (fun table different => ?_) (fun alsoTracked row member => ?_)
    fun alsoTracked => ?_
  · rw [Store.rows_merge, if_neg different]
  · rw [Store.rows_merge, if_pos rfl, Rows.mem_union] at member
    rcases member with member | member
    · exact represents.shaped other name declared alsoTracked row member
    · exact represents.shaped part name declared isTracked row member
  · rw [← represents.same part name declared isTracked, ← represents.same other name declared alsoTracked]
    ext row
    simp only [content, Store.rows_merge, if_pos, Rows.mem_union, Set.mem_union, Set.mem_ofPred_eq]
    grind

/-- Put the rows of one table of a relation into another. -/
theorem Represents.put (distinct : (tableNames program).Nodup)
    (represents : Represents program auxiliary tracked store contents) (declared : name ∈ program.relationNames)
    {rows : Rows} (shaped : ∀ row ∈ rows, row.length = arityOf program name + auxiliary) {logical : Set Row}
    (isContent : ∀ row, row ∈ logical ↔
      ∃ full ∈ rows, full.length = arityOf program name + auxiliary ∧ full.take (arityOf program name) = row) :
    Represents program auxiliary tracked (store.put (part.table name) rows) (contents.set part name logical) := by
  refine represents.update distinct declared (fun table different => ?_) (fun _ row member => ?_) fun _ => ?_
  · rw [Store.rows_put, if_neg different]
  · rw [Store.rows_put, if_pos rfl] at member
    exact shaped row member
  · ext row
    rw [content, Store.rows_put, if_pos rfl, isContent]
    rfl

theorem Represents.swap (part other : Part) (distinct : (tableNames program).Nodup)
    (represents : Represents program auxiliary tracked store contents) (declared : name ∈ program.relationNames)
    (isTracked : tracked part name) (alsoTracked : tracked other name) :
    Represents program auxiliary tracked (store.swap (part.table name) (other.table name))
      ((contents.set part name (contents other name)).set other name (contents part name)) := by
  have first : Represents program auxiliary tracked
      (store.put (part.table name) (store.rows (other.table name)))
      (contents.set part name (contents other name)) := by
    refine represents.put distinct declared (represents.shaped other name declared alsoTracked) fun row => ?_
    rw [← represents.same other name declared alsoTracked]
    rfl
  refine first.put distinct declared (represents.shaped part name declared isTracked) fun row => ?_
  rw [← represents.same part name declared isTracked]
  rfl

/-- A table is empty exactly if its logical content is. -/
theorem Represents.isEmpty_iff (part : Part)
    (represents : Represents program auxiliary tracked store contents)
    (declared : name ∈ program.relationNames) (isTracked : tracked part name) :
    (∀ row, row ∉ store.rows (part.table name)) ↔ contents part name = ∅ := by
  rw [← represents.same part name declared isTracked, Set.eq_empty_iff_forall_notMem]
  constructor
  · rintro none row ⟨full, member, _⟩
    exact none full member
  · intro none row member
    exact none (row.take (arityOf program name))
      ⟨row, member, represents.shaped part name declared isTracked row member, rfl⟩

end DatalogRam.Lowering
