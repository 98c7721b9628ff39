import DatalogRam.Proofs.Analysis.Expiry
import DatalogRam.Proofs.Datalog.Fragment
import DatalogRam.Proofs.Evaluation.Clauses

/-!
# Regular programs

In a regular program tables are told apart by their names, atoms have their declared arity, clauses are simple,
and negation is stratified. Then a clause that is not recursive reads nothing of its own stratum, and a recursive
one negates nothing of it. A table stays live as long as its relation is still read or computed.
-/

namespace DatalogRam

open Analysis

/-- What the evaluation of a program needs to be right. -/
structure Program.Regular (program : Program) : Prop where
  distinct : (Lowering.tableNames program).Nodup
  simple : ∀ clause ∈ program.clauses, clause.Simple
  declared : ∀ clause ∈ program.clauses, Lowering.Clause.Declared program clause
  stratified : program.Stratified

/-- What the rounds of one stratum need to be right, whatever the other strata are like. -/
structure Program.RegularIn (program : Program) (stratum : Stratum) : Prop where
  distinct : (Lowering.tableNames program).Nodup
  simple : ∀ clause ∈ program.clauses, clause.head.relation ∈ stratum.relations → clause.Simple
  declared : ∀ clause ∈ program.clauses, clause.head.relation ∈ stratum.relations →
    Lowering.Clause.Declared program clause
  unnegated : ∀ clause ∈ program.clauses, clause.head.relation ∈ stratum.relations →
    ∀ atom ∈ clause.negatedAtoms, atom.relation ∉ stratum.relations

section

variable {program : Program} {clause : Clause}

theorem Program.RegularIn.once {stratum : Stratum} (regular : program.RegularIn stratum) :
    program.relationNames.Nodup :=
  Lowering.relationNames_nodup regular.distinct

theorem Program.Regular.once (regular : program.Regular) : program.relationNames.Nodup :=
  Lowering.relationNames_nodup regular.distinct

theorem Program.Regular.declared_of_reads (regular : program.Regular) (isClause : clause ∈ program.clauses)
    {name : Name} (reads : name ∈ clause.reads) : name ∈ program.relationNames := by
  rcases (regular.simple clause isClause).mem_reads_iff.1 reads with ⟨atom, member, rfl⟩ | ⟨atom, member, rfl⟩
  · exact (regular.declared clause isClause atom (Clause.positive_mem_atoms member)).1
  · exact (regular.declared clause isClause atom (Clause.negated_mem_atoms member)).1

end

namespace Lowering

variable {program : Program} {position : Nat} {clause : Clause} {atom : Atom}

theorem inStratum_iff_mem {stratum : Stratum} (found : (strata program)[position]? = some stratum) {name : Name} :
    InStratum program position name ↔ name ∈ stratum.relations := by
  constructor
  · rintro ⟨other, atPosition, member⟩
    rw [found] at atPosition
    cases atPosition
    exact member
  · exact fun member => ⟨stratum, found, member⟩

/-- A clause negates nothing of its own stratum. -/
theorem not_inStratum_of_negated (regular : program.Regular) (isClause : clause ∈ program.clauses)
    (inside : InStratum program position clause.head.relation) (member : atom ∈ clause.negatedAtoms) :
    ¬InStratum program position atom.relation := by
  intro alsoInside
  exact regular.stratified clause isClause atom member
    ((inside.eq_iff_sameComponent regular.once alsoInside).1 rfl)

section Stratum

variable {stratum : Stratum} (found : (strata program)[position]? = some stratum)

include found

theorem regularIn_of_regular (regular : program.Regular) : program.RegularIn stratum where
  distinct := regular.distinct
  simple := fun clause isClause _ => regular.simple clause isClause
  declared := fun clause isClause _ => regular.declared clause isClause
  unnegated := fun _ isClause inside _ member alsoInside =>
    not_inStratum_of_negated regular isClause ⟨stratum, found, inside⟩ member ⟨stratum, found, alsoInside⟩

theorem positiveAround_of_mem (regular : program.RegularIn stratum) {name : Name} (inside : name ∈ stratum.relations) :
    program.PositiveAround name := by
  have within {other : Name} (declared : other ∈ program.relationNames) (same : program.SameComponent name other) :
      other ∈ stratum.relations := by
    obtain ⟨_, inOther⟩ := exists_inStratum declared
    have equal := (InStratum.eq_iff_sameComponent regular.once ⟨stratum, found, inside⟩ inOther).2 same
    exact (inStratum_iff_mem found).1 (equal ▸ inOther)
  intro clause isClause isHead read isRead same
  have headDeclared : clause.head.relation ∈ program.relationNames :=
    Program.declared_of_readsThrough (InStratum.declared ⟨stratum, found, inside⟩) isHead.1
  have headInside : clause.head.relation ∈ stratum.relations := within headDeclared isHead
  rcases (regular.simple clause isClause headInside).mem_reads_iff.1 isRead with
    ⟨atom, member, rfl⟩ | ⟨atom, member, rfl⟩
  · exact ⟨atom, member, rfl⟩
  · have declared := (regular.declared clause isClause headInside atom (Clause.negated_mem_atoms member)).1
    exact absurd (within declared same) (regular.unnegated clause isClause headInside atom member)

/-- A clause that is not recursive reads nothing of its own stratum. -/
theorem not_mem_of_complete (regular : program.RegularIn stratum) (isClause : clause ∈ program.clauses)
    (complete : isRecursive program clause = false) (inside : clause.head.relation ∈ stratum.relations)
    (member : atom ∈ clause.positiveAtoms ∨ atom ∈ clause.negatedAtoms) : atom.relation ∉ stratum.relations := by
  rcases member with positive | negated
  · intro alsoInside
    have same := (InStratum.eq_iff_sameComponent regular.once ⟨stratum, found, inside⟩
      ⟨stratum, found, alsoInside⟩).1 rfl
    have recursive := isRecursive_of_sameComponent (positiveAround_of_mem found regular inside) positive
      (InStratum.declared ⟨stratum, found, alsoInside⟩) same
    rw [complete] at recursive
    cases recursive
  · exact regular.unnegated clause isClause inside atom negated

end Stratum

/-- The relations that have expired before the stratum at a position. -/
def Expired (program : Program) (position : Nat) (name : Name) : Prop :=
  ∃ earlier expired, earlier < position ∧
    (expirations program (strata program))[earlier]? = some expired ∧ name ∈ expired

/-- The tables that still count before the stratum at a position. -/
def Live (program : Program) (position : Nat) (part : Part) (name : Name) : Prop :=
  part = .full → ¬Expired program position name

theorem Live.of_touched {stratum : Stratum} (found : (strata program)[position]? = some stratum) {name : Name}
    (isTouched : name ∈ touched program stratum) (part : Part) : Live program position part name := by
  rintro _ ⟨earlier, expired, before, isExpired, member⟩
  exact (expirations_getElem? isExpired member).2 position stratum before found isTouched

theorem Live.of_output {name : Name} (output : isOutput program name = true) (part : Part) :
    Live program position part name := by
  rintro _ ⟨earlier, expired, before, isExpired, member⟩
  rw [(expirations_getElem? isExpired member).1] at output
  cases output

theorem Live.of_succ {part : Part} {name : Name} (live : Live program (position + 1) part name) :
    Live program position part name := by
  rintro isFull ⟨earlier, expired, before, isExpired, member⟩
  exact live isFull ⟨earlier, expired, by omega, isExpired, member⟩

/-- The relations of a stratum and those that its clauses read are live. -/
theorem Live.of_atom (regular : program.Regular) {stratum : Stratum}
    (found : (strata program)[position]? = some stratum) (isClause : clause ∈ program.clauses)
    (inside : clause.head.relation ∈ stratum.relations) (member : atom ∈ clause.atoms) (part : Part) :
    Live program position part atom.relation := by
  refine Live.of_touched found (mem_touched_iff.2 ?_) part
  rcases List.mem_cons.1 member with rfl | body
  · exact .inl inside
  · refine .inr ⟨clause, isClause, inside, (regular.simple clause isClause).mem_reads_iff.2 ?_⟩
    rcases List.mem_append.1 body with positive | negated
    · exact .inl ⟨atom, positive, rfl⟩
    · exact .inr ⟨atom, negated, rfl⟩

/-- The tables that a stratum reads and extends are followed. -/
structure Followed (program : Program) (stratum : Stratum) (tracked : Part → Name → Prop) : Prop where
  own : ∀ part, ∀ name ∈ stratum.relations, tracked part name
  read : ∀ clause ∈ program.clauses, clause.head.relation ∈ stratum.relations →
    ∀ atom ∈ clause.atoms, tracked .full atom.relation

theorem followed_live (regular : program.Regular) {stratum : Stratum}
    (found : (strata program)[position]? = some stratum) : Followed program stratum (Live program position) where
  own := fun part _ member => Live.of_touched found (mem_touched_iff.2 (.inl member)) part
  read := fun _ isClause inside _ member => Live.of_atom regular found isClause inside member .full

end Lowering

/-- Which nodes are connected by a path of edges: a regular program with a recursive clause. -/
def reachability : Program where
  types := []
  relations :=
    [⟨⟨["edge"]⟩, [⟨"x", ⟨["number"]⟩⟩, ⟨"y", ⟨["number"]⟩⟩], .standard, [.input]⟩,
      ⟨⟨["path"]⟩, [⟨"x", ⟨["number"]⟩⟩, ⟨"y", ⟨["number"]⟩⟩], .standard, [.output]⟩]
  clauses :=
    [⟨⟨⟨["path"]⟩, [.var "x", .var "y"]⟩, [.positive ⟨["edge"]⟩ [.var "x", .var "y"]]⟩,
      ⟨⟨⟨["path"]⟩, [.var "x", .var "z"]⟩,
        [.positive ⟨["path"]⟩ [.var "x", .var "y"], .positive ⟨["edge"]⟩ [.var "y", .var "z"]]⟩]

theorem flat_reachability : ∀ clause ∈ reachability.clauses, clause.Flat := by
  intro clause member
  simp only [reachability, List.mem_cons, List.not_mem_nil, or_false] at member
  rcases member with rfl | rfl
  · exact ⟨by decide, by decide, by decide, by simp⟩
  · exact ⟨by decide, by decide, by decide, by simp⟩

theorem regular_reachability : reachability.Regular where
  distinct := by decide
  simple := fun clause member => (flat_reachability clause member).simple
  declared := by
    unfold Lowering.Clause.Declared
    decide
  stratified := by
    intro clause member atom negated
    have none : ∀ clause ∈ reachability.clauses, clause.negatedAtoms = [] := by decide
    rw [none clause member] at negated
    cases negated

end DatalogRam
