import DatalogRam.Proofs.Evaluation.Tables

/-!
# Queries on logical contents

The query of a simple clause adds to the logical content of its target just what the clause derives from the
logical contents that it reads, less what the guard of an incremental version keeps out. This does not depend on
the strategy.
-/

namespace DatalogRam

/-- All atoms of a clause. -/
def Clause.atoms (clause : Clause) : List Atom :=
  clause.head :: (clause.positiveAtoms ++ clause.negatedAtoms)

theorem Clause.head_mem_atoms (clause : Clause) : clause.head ∈ clause.atoms :=
  List.mem_cons_self

theorem Clause.positive_mem_atoms {clause : Clause} {atom : Atom} (member : atom ∈ clause.positiveAtoms) :
    atom ∈ clause.atoms :=
  List.mem_cons_of_mem _ (List.mem_append_left _ member)

theorem Clause.negated_mem_atoms {clause : Clause} {atom : Atom} (member : atom ∈ clause.negatedAtoms) :
    atom ∈ clause.atoms :=
  List.mem_cons_of_mem _ (List.mem_append_right _ member)

namespace Lowering

open Machine Ram

/-- The part into which a version inserts. -/
def Version.part (version : Version) : Part :=
  if version.isIncremental then .fresh else .full

/-- The part in which a version reads the atom at a position. -/
def Version.reads (version : Version) (position : Nat) : Part :=
  if version.readsDelta position then .delta else .full

theorem Version.target_eq (version : Version) (name : Name) : version.target name = version.part.table name := by
  rw [Version.target, Version.part]
  split <;> rfl

theorem Version.source_eq (version : Version) (position : Nat) (name : Name) :
    version.source position name = (version.reads position).table name := by
  rw [Version.source, Version.reads]
  split <;> rfl

/-- Where each atom reads, in a version with an atom for the rows of the previous round. -/
theorem Version.reads_incremental (contents : Contents) (position : Nat) :
    (fun other => contents ((Version.incremental (some position)).reads other)) =
      atPosition (contents .full) (contents .delta) position := by
  funext other
  rw [Version.reads, Version.readsDelta, atPosition]
  by_cases same : other = position
  · simp [same]
  · have different : position ≠ other := fun equal => same equal.symm
    simp [same, different]

/-- What a version of a clause's query adds to the content of its target. -/
def Version.adds (version : Version) (ordinal : String → Int64) (clause : Clause) (contents : Contents) :
    Set Row :=
  {row | (version.isIncremental = true → row ∉ contents .full clause.head.relation) ∧
    clause.Derives ordinal (fun position => contents (version.reads position)) (contents .full) row}

variable {ordinal : String → Int64} {plan : Plan} {clause : Clause} {id : Nat} {version : Version}
variable {tracked : Part → Name → Prop} {start final : Store} {contents : Contents}

/-- All tables that a version of a query reads or extends are followed. -/
structure Follows (tracked : Part → Name → Prop) (clause : Clause) (version : Version) : Prop where
  head : tracked .full clause.head.relation
  target : tracked version.part clause.head.relation
  positive : ∀ position atom, clause.positiveAtoms[position]? = some atom →
    tracked (version.reads position) atom.relation
  negated : ∀ atom ∈ clause.negatedAtoms, tracked .full atom.relation

/-- The atoms of a clause name declared relations with their declared arity. -/
def Clause.Declared (program : Program) (clause : Clause) : Prop :=
  ∀ atom ∈ clause.atoms, atom.relation ∈ program.relationNames ∧ atom.arity = arityOf program atom.relation

/-- A clause whose query over complete relations does not read its own head. -/
def Clause.ReadsOthers (clause : Clause) : Prop :=
  ∀ atom, atom ∈ clause.positiveAtoms ∨ atom ∈ clause.negatedAtoms → atom.relation ≠ clause.head.relation

theorem separate_of_distinct (distinct : (tableNames plan.program).Nodup)
    (declared : Clause.Declared plan.program clause)
    (others : version.isIncremental = false → Clause.ReadsOthers clause) : Separate version clause := by
  have isHead := (declared _ clause.head_mem_atoms).1
  constructor
  · intro position atom atPosition
    have member := List.mem_of_getElem? atPosition
    rw [Version.source_eq, Version.target_eq]
    intro same
    have both := table_injective distinct (declared _ (Clause.positive_mem_atoms member)).1 isHead same
    cases incremental : version.isIncremental with
    | true =>
        have parts := both.1
        rw [Version.part, incremental, Version.reads] at parts
        split at parts <;> cases parts
    | false => exact others incremental atom (.inl member) both.2
  · intro atom member
    rw [Version.target_eq]
    intro same
    have both : Part.full = version.part ∧ atom.relation = clause.head.relation :=
      table_injective distinct (declared _ (Clause.negated_mem_atoms member)).1 isHead same
    cases incremental : version.isIncremental with
    | true =>
        have parts := both.1
        rw [Version.part, incremental] at parts
        cases parts
    | false => exact others incremental atom (.inr member) both.2
  · intro incremental
    rw [Version.target_eq, Version.part, if_pos incremental]
    intro same
    have both : Part.full = Part.fresh ∧ clause.head.relation = clause.head.relation :=
      table_injective distinct isHead isHead same
    cases both.1

theorem Represents.readsContents (represents : Represents plan.program plan.auxiliary tracked start contents)
    (declared : Clause.Declared plan.program clause) (follows : Follows tracked clause version) :
    ReadsContents plan clause version start (fun position => contents (version.reads position))
      (contents .full) where
  positive := by
    intro position atom atPosition
    obtain ⟨isDeclared, arity⟩ := declared _ (Clause.positive_mem_atoms (List.mem_of_getElem? atPosition))
    rw [Version.source_eq, arity]
    exact represents.same _ _ isDeclared (follows.positive position atom atPosition)
  negated := by
    intro atom member
    obtain ⟨isDeclared, arity⟩ := declared _ (Clause.negated_mem_atoms member)
    rw [arity]
    exact represents.same .full _ isDeclared (follows.negated atom member)

theorem Represents.shapedAtoms (represents : Represents plan.program plan.auxiliary tracked start contents)
    (declared : Clause.Declared plan.program clause) (follows : Follows tracked clause version) :
    Shaped version plan.auxiliary clause.positiveAtoms start := by
  intro position atom atPosition row member
  obtain ⟨isDeclared, arity⟩ := declared _ (Clause.positive_mem_atoms (List.mem_of_getElem? atPosition))
  rw [arity]
  rw [Version.source_eq] at member
  exact represents.shaped _ _ isDeclared (follows.positive position atom atPosition) row member

theorem Represents.headShaped (represents : Represents plan.program plan.auxiliary tracked start contents)
    (declared : Clause.Declared plan.program clause) (follows : Follows tracked clause version) :
    HeadShaped plan.auxiliary clause start := by
  intro row member
  obtain ⟨isDeclared, arity⟩ := declared _ clause.head_mem_atoms
  rw [arity]
  exact represents.shaped .full _ isDeclared follows.head row member

/-- The effect of a query on logical contents. -/
theorem Represents.queried (distinct : (tableNames plan.program).Nodup)
    (represents : Represents plan.program plan.auxiliary tracked start contents) (simple : clause.Simple)
    (grounded : Clause.Grounded clause) (declared : Clause.Declared plan.program clause)
    (separate : Separate version clause) (follows : Follows tracked clause version)
    (queried : Queried ordinal plan clause id version start final) :
    Represents plan.program plan.auxiliary tracked final
      (contents.set version.part clause.head.relation
        (contents version.part clause.head.relation ∪ version.adds ordinal clause contents)) := by
  obtain ⟨isDeclared, arity⟩ := declared _ clause.head_mem_atoms
  have reads := represents.readsContents declared follows
  have headContent : content start clause.head.relation.text clause.head.arity plan.auxiliary =
      contents .full clause.head.relation := by
    rw [arity]
    exact represents.same .full _ isDeclared follows.head
  have targetContent : content start (version.part.table clause.head.relation) clause.head.arity plan.auxiliary =
      contents version.part clause.head.relation := by
    rw [arity]
    exact represents.same _ _ isDeclared follows.target
  have others := queried.others
  have kept := queried.kept
  have added := queried.added
  rw [Version.target_eq] at others kept added
  refine represents.update distinct isDeclared others (fun _ row member => ?_) fun _ => ?_
  · rw [← arity]
    rcases added row member with before | ⟨rows, _, rfl, _⟩
    · rw [arity]
      exact represents.shaped _ _ isDeclared follows.target row before
    · exact length_derivedRow
  · rw [← arity, ← targetContent]
    apply Set.Subset.antisymm
    · rintro _ ⟨full, member, length, rfl⟩
      rcases added full member with before | ⟨rows, fires, rfl, guarded⟩
      · exact .inl ⟨full, before, length, rfl⟩
      · rw [take_derivedRow]
        refine .inr ⟨fun incremental => ?_, derives_of_fires reads (represents.shapedAtoms declared follows) fires⟩
        rw [← headContent]
        exact guarded incremental
    · rintro row (before | ⟨guarded, derives⟩)
      · exact content_mono kept before
      · obtain ⟨rows, fires, rfl⟩ := fires_of_derives simple grounded reads derives
        rcases queried.known rows fires with inTarget | ⟨incremental, inRelation⟩
        · rw [← Version.target_eq]
          exact inTarget
        · rw [content_congr (queried.others _ (separate.head incremental)), headContent] at inRelation
          exact absurd inRelation (guarded incremental)

end Lowering

end DatalogRam
