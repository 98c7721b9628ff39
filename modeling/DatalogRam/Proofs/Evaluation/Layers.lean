import DatalogRam.Proofs.Datalog.Fixpoint
import DatalogRam.Proofs.Evaluation.Rounds

/-!
# The strata as components

If no attribute is typed by an equivalence relation, the strata of a regular program are components each of which
reads only itself and earlier ones, and together they have all clauses.
-/

namespace DatalogRam

open Analysis

namespace Lowering

variable {program : Program} {position : Nat} {stratum : Stratum} {clause : Clause}

theorem mem_clauses_iff :
    clause ∈ (componentOf program stratum).clauses ↔
      clause ∈ program.clauses ∧ clause.head.relation ∈ stratum.relations := by
  rw [Component.clauses, List.mem_append]
  simp only [componentOf, mem_componentOf]
  cases isRecursive program clause <;> simp

theorem mem_componentsOf (regular : program.Regular) :
    clause ∈ program.clauses ↔ ∃ component ∈ componentsOf program, clause ∈ component.clauses := by
  constructor
  · intro isClause
    have declared := (regular.declared clause isClause _ clause.head_mem_atoms).1
    obtain ⟨position, stratum, found, inside⟩ := exists_inStratum declared
    exact ⟨_, List.mem_map.2 ⟨stratum, List.mem_of_getElem? found, rfl⟩, mem_clauses_iff.2 ⟨isClause, inside⟩⟩
  · rintro ⟨component, member, isClause⟩
    obtain ⟨stratum, _, rfl⟩ := List.mem_map.1 member
    exact (mem_clauses_iff.1 isClause).1

/-- The head of a clause has the declared arity. -/
theorem head_arity (regular : program.Regular) {component : Component} (member : component ∈ componentsOf program)
    (isClause : clause ∈ component.recursive) :
    clause.head.args.length = arityOf program clause.head.relation := by
  obtain ⟨stratum, _, rfl⟩ := List.mem_map.1 member
  have isOwn := (mem_clauses_iff.1 (List.mem_append_right _ isClause)).1
  exact (regular.declared clause isOwn _ clause.head_mem_atoms).2

/-- The recursive clauses of a stratum are those that read it in a positive atom. -/
theorem mem_recursive_iff (regular : program.RegularIn stratum) (noEquivalence : program.NoEquivalence)
    (found : (strata program)[position]? = some stratum) :
    clause ∈ (componentOf program stratum).recursive ↔
      clause ∈ program.clauses ∧ clause.head.relation ∈ stratum.relations ∧
        ∃ atom ∈ clause.positiveAtoms, atom.relation ∈ stratum.relations := by
  have inside {name : Name} : name ∈ stratum.relations ↔ InStratum program position name :=
    (inStratum_iff_mem found).symm
  simp only [componentOf, mem_componentOf]
  refine and_congr_right fun isClause => and_congr_right fun isHead => ?_
  constructor
  · intro recursive
    obtain ⟨atom, isAtom, isDeclared, same⟩ :=
      sameComponent_of_isRecursive (fun _ => noEquivalence.equivalenceTypes_eq) isClause (inside.1 isHead).declared
        recursive
    obtain ⟨other, inOther⟩ := exists_inStratum isDeclared
    have equal := ((inside.1 isHead).eq_iff_sameComponent regular.once inOther).2 same
    exact ⟨atom, isAtom, inside.2 (equal ▸ inOther)⟩
  · rintro ⟨atom, isAtom, isOwn⟩
    by_contra complete
    exact not_mem_of_complete found regular isClause (Bool.not_eq_true _ ▸ complete) isHead (.inl isAtom) isOwn

theorem proper_componentOf (regular : program.RegularIn stratum) (noEquivalence : program.NoEquivalence)
    (found : (strata program)[position]? = some stratum) : (componentOf program stratum).Proper := by
  constructor
  · exact fun clause isClause => (mem_clauses_iff.1 isClause).2
  · intro clause member atom isRead
    obtain ⟨isClause, isHead, complete⟩ := mem_componentOf.1 member
    exact not_mem_of_complete found regular isClause complete isHead isRead
  · exact fun clause member => ((mem_recursive_iff regular noEquivalence found).1 member).2.2
  · intro clause member atom negated
    obtain ⟨isClause, isHead, _⟩ := mem_componentOf.1 member
    exact regular.unnegated clause isClause isHead atom negated
  · intro some
    obtain ⟨clause, member⟩ := List.exists_mem_of_ne_nil _ some
    obtain ⟨isClause, isHead, atom, isAtom, isOwn⟩ := (mem_recursive_iff regular noEquivalence found).1 member
    exact recursive_of_reads regular.once found isHead isOwn
      ⟨InStratum.declared ⟨stratum, found, isOwn⟩, clause, isClause, rfl, Clause.reads_of_positive isAtom⟩

/-- A clause reads nothing of a later stratum. -/
theorem not_inStratum_of_later (regular : program.Regular) (isClause : clause ∈ program.clauses)
    (inside : InStratum program position clause.head.relation) {atom : Atom}
    (isRead : atom ∈ clause.positiveAtoms ∨ atom ∈ clause.negatedAtoms) {later : Nat} (after : position < later) :
    ¬InStratum program later atom.relation := by
  intro inLater
  have reads : program.Reads clause.head.relation atom.relation := by
    refine ⟨inLater.declared, clause, isClause, rfl, ?_⟩
    rcases isRead with positive | negated
    · exact Clause.reads_of_positive positive
    · exact Clause.reads_of_negated negated
  have := inside.le_of_readsThrough regular.once inLater (.single reads)
  omega

theorem layered_of_regular (regular : program.Regular) (noEquivalence : program.NoEquivalence) :
    Layered (componentsOf program) := by
  have layered (rest : List Stratum) (position : Nat)
      (found : ∀ (index : Nat) (stratum : Stratum), rest[index]? = some stratum →
        (strata program)[position + index]? = some stratum) :
      Layered (rest.map (componentOf program)) := by
    induction rest generalizing position with
    | nil => trivial
    | cons stratum rest ih =>
        refine ⟨proper_componentOf (regularIn_of_regular (found 0 stratum rfl) regular) noEquivalence (found 0 stratum rfl),
          ?_, ?_⟩
        · intro component member clause isClause atom isRead isOwn
          obtain ⟨later, isLater, rfl⟩ := List.mem_map.1 member
          obtain ⟨index, atIndex⟩ := List.getElem?_of_mem isLater
          obtain ⟨isClause, isHead⟩ := mem_clauses_iff.1 isClause
          have atLater := found (index + 1) later atIndex
          exact not_inStratum_of_later regular isClause ⟨stratum, found 0 stratum rfl, isHead⟩ isRead
            (by omega : position + 0 < position + (index + 1)) ⟨later, atLater, isOwn⟩
        · refine ih (position + 1) fun index other atIndex => ?_
          rw [Nat.add_right_comm, Nat.add_assoc]
          exact found (index + 1) other atIndex
  exact layered (strata program) 0 fun index stratum atIndex => by rwa [Nat.zero_add]

/-- What the evaluation of a program ends with is the model of its clauses with itself for the negated atoms. -/
theorem evaluatesTo_eq_leastModel {ordinal : String → Int64} (regular : program.Regular)
    (noEquivalence : program.NoEquivalence) {given final : Facts}
    (evaluates : EvaluatesTo ordinal (componentsOf program) given final) (name : Name) :
    final name = leastModel ordinal program.clauses given final name :=
  evaluates.eq_leastModel (layered_of_regular regular noEquivalence) (fun _ => mem_componentsOf regular) name

theorem exists_evaluatesTo_of_regular (ordinal : String → Int64) (regular : program.Regular) (given : Facts) :
    ∃ final, EvaluatesTo ordinal (componentsOf program) given final :=
  exists_evaluatesTo (fun _ member _ isClause => head_arity regular member isClause) given

end Lowering

end DatalogRam
