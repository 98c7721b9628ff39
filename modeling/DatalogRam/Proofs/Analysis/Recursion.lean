import DatalogRam.Analysis.Recursion
import DatalogRam.Proofs.Analysis.Reach
import DatalogRam.Proofs.Analysis.Strata

/-!
# Recursive clauses and strata

Recursion follows positive atoms and the equivalence relations that type attributes, strata follow everything
that a body reads. Where a component reads its own relations in positive atoms only, a clause with a positive
atom of its own stratum is recursive. Where no attribute is typed by an equivalence relation, a recursive clause
has such an atom.
-/

namespace DatalogRam

theorem Program.mem_clausesOf {program : Program} {name : Name} {clause : Clause} {id : Nat} :
    (clause, id) ∈ program.clausesOf name ↔
      program.clauses[id]? = some clause ∧ clause.head.relation = name := by
  rw [Program.clausesOf, Program.numberedClauses, List.mem_filter, List.mem_zipIdx_iff_getElem?, beq_iff_eq]

theorem Program.relation?_eq_some {program : Program} {name : Name} {relation : Relation}
    (found : program.relation? name = some relation) :
    relation ∈ program.relations ∧ relation.name = name :=
  ⟨List.mem_of_find?_eq_some found, by simpa using List.find?_some found⟩

theorem Program.exists_relation {program : Program} {name : Name}
    (declared : name ∈ program.relationNames) : ∃ relation, program.relation? name = some relation := by
  obtain ⟨relation, isRelation, rfl⟩ := List.mem_map.1 declared
  exact Option.isSome_iff_exists.1 (List.find?_isSome.2 ⟨relation, isRelation, by simp⟩)

/-- The first declaration of a name is its only one if names do not repeat. -/
theorem Program.relation?_of_mem {program : Program} (once : program.relationNames.Nodup) {relation : Relation}
    (declared : relation ∈ program.relations) : program.relation? relation.name = some relation := by
  obtain ⟨first, found⟩ := Program.exists_relation (List.mem_map.2 ⟨relation, declared, rfl⟩)
  obtain ⟨isFirst, sameName⟩ := Program.relation?_eq_some found
  rw [found, List.inj_on_of_nodup_map once isFirst declared sameName]

theorem Program.mem_relationNames_of_declares {program : Program} {name : Name}
    (declared : program.declares name = true) : name ∈ program.relationNames := by
  obtain ⟨relation, found⟩ := Option.isSome_iff_exists.1 declared
  obtain ⟨member, rfl⟩ := Program.relation?_eq_some found
  exact List.mem_map_of_mem member

theorem Literal.mem_readsOfAll {name : Name} {literals : List Literal} :
    name ∈ Literal.readsOfAll literals ↔ ∃ literal ∈ literals, name ∈ literal.reads := by
  induction literals with
  | nil => simp [Literal.readsOfAll]
  | cons literal literals ih => simp [Literal.readsOfAll, ih]

theorem Literal.mem_positiveAtoms {literals : List Literal} {atom : Atom} :
    atom ∈ literals.filterMap Literal.positiveAtom? ↔ .positive atom.relation atom.args ∈ literals := by
  rw [List.mem_filterMap]
  constructor
  · rintro ⟨literal, member, found⟩
    cases literal <;> simp [Literal.positiveAtom?] at found
    exact found ▸ member
  · exact fun member => ⟨_, member, rfl⟩

theorem Clause.mem_positiveAtoms {clause : Clause} {atom : Atom} :
    atom ∈ clause.positiveAtoms ↔ .positive atom.relation atom.args ∈ clause.body :=
  Literal.mem_positiveAtoms

theorem Clause.mem_negatedAtoms {clause : Clause} {atom : Atom} :
    atom ∈ clause.negatedAtoms ↔ .negative atom.relation atom.args ∈ clause.body := by
  rw [Clause.negatedAtoms, List.mem_filterMap]
  constructor
  · rintro ⟨literal, member, found⟩
    cases literal <;> simp [Literal.negatedAtom?] at found
    exact found ▸ member
  · exact fun member => ⟨_, member, rfl⟩

theorem Clause.reads_of_positive {clause : Clause} {atom : Atom} (member : atom ∈ clause.positiveAtoms) :
    atom.relation ∈ clause.reads :=
  Literal.mem_readsOfAll.2 ⟨_, Clause.mem_positiveAtoms.1 member, by simp [Literal.reads]⟩

theorem Clause.reads_of_negated {clause : Clause} {atom : Atom} (member : atom ∈ clause.negatedAtoms) :
    atom.relation ∈ clause.reads :=
  Literal.mem_readsOfAll.2 ⟨_, Clause.mem_negatedAtoms.1 member, by simp [Literal.reads]⟩

/-- The relations of one component read each other in positive atoms only. -/
def Program.PositiveAround (program : Program) (name : Name) : Prop :=
  ∀ clause ∈ program.clauses, program.SameComponent name clause.head.relation →
    ∀ read ∈ clause.reads, program.SameComponent name read → ∃ atom ∈ clause.positiveAtoms, atom.relation = read

/-- No attribute is typed by an equivalence relation. -/
def Program.NoEquivalence (program : Program) : Prop :=
  ∀ relation ∈ program.relations, ∀ column ∈ relation.attributes, ∀ typed ∈ program.relations,
    typed.name = column.type → typed.representation ≠ .eqrel

open Analysis in
theorem Program.NoEquivalence.equivalenceTypes_eq {program : Program} (noEquivalence : program.NoEquivalence)
    {relation : Relation} (member : relation ∈ program.relations) : equivalenceTypes program relation = [] := by
  rw [equivalenceTypes, List.filterMap_eq_nil_iff]
  intro column isColumn
  split
  · next typed found =>
      obtain ⟨isTyped, sameName⟩ := Program.relation?_eq_some found
      rw [if_neg (noEquivalence relation member column isColumn typed isTyped sameName)]
  · rfl

namespace Analysis

variable {program : Program}

theorem mem_leadsTo_of_positive {clause : Clause} (isClause : clause ∈ program.clauses) {atom : Atom}
    (member : atom ∈ clause.positiveAtoms) (declared : clause.head.relation ∈ program.relationNames) :
    atom.relation ∈ leadsTo program clause.head.relation := by
  obtain ⟨relation, found⟩ := Program.exists_relation declared
  obtain ⟨id, position⟩ := List.getElem?_of_mem isClause
  rw [leadsTo, found]
  refine List.mem_append_right _ (List.mem_flatMap.2 ⟨(clause, id), ?_, ?_⟩)
  · exact Program.mem_clausesOf.2 ⟨position, rfl⟩
  · exact List.mem_map.2 ⟨atom, member, rfl⟩

/-- Without attributes typed by equivalence relations, a relation leads to what it reads in positive atoms. -/
theorem positive_of_mem_leadsTo
    (noEquivalence : ∀ relation ∈ program.relations, equivalenceTypes program relation = [])
    {source target : Name} (leads : target ∈ leadsTo program source) :
    ∃ clause ∈ program.clauses, clause.head.relation = source ∧
      ∃ atom ∈ clause.positiveAtoms, atom.relation = target := by
  rw [leadsTo] at leads
  split at leads
  · simp at leads
  · next relation found =>
      rw [noEquivalence relation (Program.relation?_eq_some found).1, List.nil_append,
        List.mem_flatMap] at leads
      obtain ⟨⟨clause, id⟩, own, member⟩ := leads
      obtain ⟨position, head⟩ := Program.mem_clausesOf.1 own
      exact ⟨clause, List.mem_of_getElem? position, head, List.mem_map.1 member⟩

theorem isRecursive_iff {clause : Clause} :
    isRecursive program clause = true ↔
      clause.head.relation ∈ clause.positiveAtoms.map Atom.relation ∨
        ∃ source, Reached (leadsTo program) program.relationNames
          (clause.positiveAtoms.map Atom.relation) source ∧
            clause.head.relation ∈ leadsTo program source := by
  simp only [isRecursive, List.contains_iff_mem, List.mem_append, List.mem_flatMap, mem_gather_iff]

/-- A clause with a positive atom of its own component is recursive. -/
theorem isRecursive_of_sameComponent {clause : Clause} (around : program.PositiveAround clause.head.relation)
    {atom : Atom} (member : atom ∈ clause.positiveAtoms) (declared : atom.relation ∈ program.relationNames)
    (same : program.SameComponent clause.head.relation atom.relation) :
    isRecursive program clause = true := by
  -- The path from the atom to the head stays in the component, so each of its steps is a positive atom.
  have steps {source target : Name} (path : program.ReadsThrough atom.relation source)
      (reads : program.Reads source target) (back : program.ReadsThrough target clause.head.relation) :
      target ∈ leadsTo program source := by
    have toSource : program.ReadsThrough clause.head.relation source := same.1.trans path
    have readsTarget : program.ReadsThrough source target := .single reads
    obtain ⟨_, other, isOther, rfl, isRead⟩ := reads
    obtain ⟨positive, isPositive, rfl⟩ :=
      around other isOther ⟨toSource, readsTarget.trans back⟩ target isRead ⟨toSource.trans readsTarget, back⟩
    exact mem_leadsTo_of_positive isOther isPositive (Program.declared_of_readsThrough declared path)
  rw [isRecursive_iff]
  have start : atom.relation ∈ clause.positiveAtoms.map Atom.relation := List.mem_map.2 ⟨atom, member, rfl⟩
  rcases Relation.ReflTransGen.cases_tail same.2 with equal | ⟨last, path, reads⟩
  · exact .inl (equal ▸ start)
  · refine .inr ⟨last, ?_, steps path reads .refl⟩
    have reached : ∀ {middle : Name}, program.ReadsThrough atom.relation middle →
        program.ReadsThrough middle clause.head.relation →
        Reached (leadsTo program) program.relationNames
          (clause.positiveAtoms.map Atom.relation) middle := by
      intro middle first
      induction first with
      | refl => exact fun _ => .seed declared start
      | tail before step ih =>
          exact fun rest => .step (ih (rest.head step)) step.1 (steps before step rest)
    exact reached path (.single reads)

/-- A recursive clause has a positive atom of its own component. -/
theorem sameComponent_of_isRecursive
    (noEquivalence : ∀ relation ∈ program.relations, equivalenceTypes program relation = [])
    {clause : Clause} (isClause : clause ∈ program.clauses)
    (declared : clause.head.relation ∈ program.relationNames)
    (recursive : isRecursive program clause = true) :
    ∃ atom ∈ clause.positiveAtoms, atom.relation ∈ program.relationNames ∧
      program.SameComponent clause.head.relation atom.relation := by
  have reads {source target : Name} (leads : target ∈ leadsTo program source)
      (inside : target ∈ program.relationNames) : program.Reads source target := by
    obtain ⟨other, isOther, rfl, positive, isPositive, rfl⟩ := positive_of_mem_leadsTo noEquivalence leads
    exact ⟨inside, other, isOther, rfl, Clause.reads_of_positive isPositive⟩
  have fromHead {atom : Atom} (member : atom ∈ clause.positiveAtoms)
      (inside : atom.relation ∈ program.relationNames) :
      program.ReadsThrough clause.head.relation atom.relation :=
    .single ⟨inside, clause, isClause, rfl, Clause.reads_of_positive member⟩
  rcases isRecursive_iff.1 recursive with direct | ⟨last, reached, leads⟩
  · obtain ⟨atom, member, same⟩ := List.mem_map.1 direct
    exact ⟨atom, member, same ▸ declared, fromHead member (same ▸ declared), same ▸ .refl⟩
  · obtain ⟨seed, start, inside, path⟩ := reached_iff.1 reached
    obtain ⟨atom, member, rfl⟩ := List.mem_map.1 start
    refine ⟨atom, member, inside, fromHead member inside, ?_⟩
    have back : program.ReadsThrough atom.relation last :=
      Relation.ReflTransGen.mono (fun _ _ step => reads step.1 step.2) _ _ path
    exact back.tail (reads leads declared)

end Analysis

end DatalogRam
