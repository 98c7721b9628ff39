import Mathlib.Data.Set.Card
import Mathlib.Data.Set.Finite.List
import DatalogRam.Proofs.Datalog.SemiNaive

/-!
# Semi-naive evaluation computes the model

The rounds of a component keep the invariant that what can be derived without the rows of the previous round is
known already. So when a round finds nothing, the component is closed. As words are finitely many, such a round
comes. Components that read only themselves and earlier ones then make facts that are the model of all their
clauses with themselves for the negated atoms.
-/

namespace DatalogRam

open Machine (Row)

variable {ordinal : String → Int64}

/-- A derivation from one set of facts is a valuation under which the body holds. -/
theorem Clause.derives_iff {clause : Clause} {facts negated : Facts} {row : Row} :
    clause.Derives ordinal (fun _ => facts) negated row ↔
      ∃ valuation, (∀ literal ∈ clause.body, literal.Holds ordinal valuation facts negated) ∧
        row = clause.headRow ordinal valuation := by
  refine exists_congr fun valuation => ?_
  rw [← and_assoc]
  refine and_congr_left fun _ => ⟨?_, fun body => ⟨?_, ?_⟩⟩
  · rintro ⟨atoms, others⟩ literal member
    cases literal with
    | positive relation args =>
        have isAtom : (⟨relation, args⟩ : Atom) ∈ clause.positiveAtoms := List.mem_filterMap.2 ⟨_, member, rfl⟩
        obtain ⟨position, atPosition⟩ := List.getElem?_of_mem isAtom
        exact atoms position _ atPosition
    | negative relation args => exact others _ member rfl
    | comparison op left right => exact others _ member rfl
    | truth value => exact others _ member rfl
  · intro position atom atPosition
    obtain ⟨literal, member, isAtom⟩ := List.mem_filterMap.1 (List.mem_of_getElem? atPosition)
    cases literal with
    | positive relation args =>
        cases isAtom
        exact body _ member
    | negative relation args => cases isAtom
    | comparison op left right => cases isAtom
    | truth value => cases isAtom
  · intro literal member isOther
    have holds := body literal member
    cases literal with
    | positive relation args => cases isOther
    | negative relation args => exact holds
    | comparison op left right => exact holds
    | truth value => exact holds

/-- More facts for the positive atoms derive no less. -/
theorem Clause.Derives.mono {clause : Clause} {positive more : Nat → Facts} {negated : Facts} {row : Row}
    (subset : ∀ position atom, clause.positiveAtoms[position]? = some atom →
      positive position atom.relation ⊆ more position atom.relation)
    (derives : clause.Derives ordinal positive negated row) : clause.Derives ordinal more negated row := by
  obtain ⟨valuation, atoms, others, isHead⟩ := derives
  refine ⟨valuation, fun position atom atPosition => ?_, others, isHead⟩
  obtain ⟨row, member, isMatch⟩ := atoms position atom atPosition
  exact ⟨row, subset position atom atPosition member, isMatch⟩

theorem Clause.Derives.length {clause : Clause} {positive : Nat → Facts} {negated : Facts} {row : Row}
    (derives : clause.Derives ordinal positive negated row) : row.length = clause.head.args.length := by
  obtain ⟨valuation, _, _, rfl⟩ := derives
  rw [Clause.headRow, Argument.values_eq_map, List.length_map]

namespace Component

variable {component : Component}

def clauses (component : Component) : List Clause :=
  component.complete ++ component.recursive

/-- The clauses of a component define its relations. Those that run once do not read them, the others read them
in a positive atom and negate none of them. -/
structure Proper (component : Component) : Prop where
  head : ∀ clause ∈ component.clauses, clause.head.relation ∈ component.names
  complete : ∀ clause ∈ component.complete, ∀ atom, atom ∈ clause.positiveAtoms ∨ atom ∈ clause.negatedAtoms →
    atom.relation ∉ component.names
  own : ∀ clause ∈ component.recursive, ∃ atom ∈ clause.positiveAtoms, atom.relation ∈ component.names
  negated : ∀ clause ∈ component.recursive, ∀ atom ∈ clause.negatedAtoms, atom.relation ∉ component.names
  repeats : component.recursive ≠ [] → component.repeats = true

theorem Proper.not_own (proper : component.Proper) {clause : Clause} (isClause : clause ∈ component.clauses)
    {atom : Atom} (member : atom ∈ clause.negatedAtoms) : atom.relation ∉ component.names := by
  rcases List.mem_append.1 isClause with complete | recursive
  · exact proper.complete clause complete atom (.inr member)
  · exact proper.negated clause recursive atom member

/-- Facts without those of the previous round. -/
def old (full delta : Facts) : Facts := fun name =>
  {row | row ∈ full name ∧ row ∉ delta name}

/-- What the rounds of a component preserve. -/
structure Progress (ordinal : String → Int64) (component : Component) (seeds full delta : Facts) : Prop where
  seeded : ∀ name, seeds name ⊆ full name
  outside : ∀ name ∉ component.names, full name = seeds name
  known : ∀ name, delta name ⊆ full name
  own : ∀ name ∉ component.names, delta name = ∅
  used : ∀ clause ∈ component.recursive, ∀ row, clause.Derives ordinal (fun _ => old full delta) full row →
    row ∈ full clause.head.relation

namespace Progress

variable {seeds full delta : Facts}

theorem start (proper : component.Proper) (seeds : Facts) :
    Progress ordinal component seeds seeds (seeds.within component.names) where
  seeded := fun name => Set.Subset.refl _
  outside := fun name _ => rfl
  known := fun name row member => member.2
  own := fun name outside => Set.eq_empty_iff_forall_notMem.2 fun row member => outside member.1
  used := by
    rintro clause isClause row ⟨valuation, atoms, _⟩
    obtain ⟨atom, member, isOwn⟩ := proper.own clause isClause
    obtain ⟨position, atPosition⟩ := List.getElem?_of_mem member
    obtain ⟨row, inOld, _⟩ := atoms position atom atPosition
    exact absurd ⟨isOwn, inOld.1⟩ inOld.2

/-- What can be derived from all facts is known, or the next round finds it. -/
theorem known_or_found (progress : Progress ordinal component seeds full delta) {clause : Clause}
    (isClause : clause ∈ component.recursive) {row : Row}
    (derives : clause.Derives ordinal (fun _ => full) full row) :
    row ∈ full clause.head.relation ∨ row ∈ component.found ordinal full delta clause.head.relation := by
  by_cases known : row ∈ full clause.head.relation
  · exact .inl known
  refine .inr ⟨known, clause, isClause, rfl, ?_⟩
  obtain ⟨valuation, atoms, others, isHead⟩ := derives
  -- Some atom has no old row, or the row would have been derived in an earlier round.
  have someNew : ¬∀ (position : Nat) (atom : Atom), clause.positiveAtoms[position]? = some atom →
      ∃ row ∈ old full delta atom.relation, Argument.Match ordinal valuation atom.args row :=
    fun allOld => known (progress.used clause isClause row ⟨valuation, allOld, others, isHead⟩)
  simp only [not_forall] at someNew
  obtain ⟨position, atom, found, notOld⟩ := someNew
  obtain ⟨witness, inFull, isMatch⟩ := atoms position atom found
  have inDelta : witness ∈ delta atom.relation := by
    by_contra notDelta
    exact notOld ⟨witness, ⟨inFull, notDelta⟩, isMatch⟩
  have isOwn : atom.relation ∈ component.names := by
    by_contra outside
    rw [progress.own _ outside] at inDelta
    exact inDelta
  refine ⟨position, atom, found, isOwn, valuation, fun other more atOther => ?_, others, isHead⟩
  rw [atPosition]
  split
  · next same =>
      rw [same, found] at atOther
      cases atOther
      exact ⟨witness, inDelta, isMatch⟩
  · exact atoms other more atOther

theorem found_subset (proper : component.Proper) {name : Name} (outside : name ∉ component.names) :
    component.found ordinal full delta name = ∅ := by
  rw [Set.eq_empty_iff_forall_notMem]
  rintro row ⟨_, clause, isClause, rfl, _⟩
  exact outside (proper.head clause (List.mem_append_right _ isClause))

/-- A round preserves the progress. -/
theorem step (proper : component.Proper) (progress : Progress ordinal component seeds full delta) :
    Progress ordinal component seeds (full.union (component.found ordinal full delta))
      (component.found ordinal full delta) where
  seeded := fun name => (progress.seeded name).trans Set.subset_union_left
  outside := fun name outside => by
    rw [Facts.union, found_subset proper outside, Set.union_empty, progress.outside name outside]
  known := fun name => Set.subset_union_right
  own := fun name outside => found_subset proper outside
  used := by
    intro clause isClause row derives
    refine progress.known_or_found isClause ?_
    have fromFull : clause.Derives ordinal (fun _ => full)
        (full.union (component.found ordinal full delta)) row :=
      derives.mono fun position atom _ row member => member.1.resolve_right member.2
    refine fromFull.congr (fun _ _ _ => rfl) fun atom member => ?_
    rw [Facts.union, found_subset proper (proper.negated clause isClause atom member), Set.union_empty]

/-- A round adds to facts that contain the known ones and are closed nothing that they do not have. -/
theorem found_subset_closed (proper : component.Proper) (progress : Progress ordinal component seeds full delta)
    {facts negated : Facts} (contained : ∀ name, full name ⊆ facts name)
    (same : ∀ clause ∈ component.recursive, ∀ atom ∈ clause.negatedAtoms, negated atom.relation = seeds atom.relation)
    (closed : ∀ clause ∈ component.recursive, ∀ row, clause.Derives ordinal (fun _ => facts) negated row →
      row ∈ facts clause.head.relation) (name : Name) :
    component.found ordinal full delta name ⊆ facts name := by
  rintro row ⟨_, clause, isClause, rfl, position, atom, _, _, derives⟩
  refine closed clause isClause row ?_
  have more : clause.Derives ordinal (fun _ => facts) full row := by
    refine derives.mono fun other atom _ => ?_
    rw [atPosition]
    split
    · exact (progress.known _).trans (contained _)
    · exact contained _
  refine more.congr (fun _ _ _ => rfl) fun atom member => ?_
  rw [progress.outside _ (proper.negated clause isClause atom member), same clause isClause atom member]

end Progress

variable {seeds full delta final : Facts}

/-- Rounds end in facts that are closed under the clauses of the rounds. -/
theorem Saturates.closed (proper : component.Proper) (saturates : component.Saturates ordinal full delta final)
    (progress : Progress ordinal component seeds full delta) :
    (∀ name, seeds name ⊆ final name) ∧ (∀ name ∉ component.names, final name = seeds name) ∧
      ∀ clause ∈ component.recursive, ∀ row, clause.Derives ordinal (fun _ => final) final row →
        row ∈ final clause.head.relation := by
  induction saturates with
  | @quiet full delta isQuiet =>
      refine ⟨progress.seeded, progress.outside, fun clause isClause row derives => ?_⟩
      refine (progress.known_or_found isClause derives).resolve_right ?_
      rw [isQuiet _ (proper.head clause (List.mem_append_right _ isClause))]
      exact Set.notMem_empty row
  | round _ _ ih => exact ih (progress.step proper)

/-- Rounds add no more than closed facts have. -/
theorem Saturates.least (proper : component.Proper) (saturates : component.Saturates ordinal full delta final)
    (progress : Progress ordinal component seeds full delta) {facts negated : Facts}
    (contained : ∀ name, full name ⊆ facts name)
    (same : ∀ clause ∈ component.recursive, ∀ atom ∈ clause.negatedAtoms, negated atom.relation = seeds atom.relation)
    (closed : ∀ clause ∈ component.recursive, ∀ row, clause.Derives ordinal (fun _ => facts) negated row →
      row ∈ facts clause.head.relation) (name : Name) : final name ⊆ facts name := by
  induction saturates with
  | quiet _ => exact contained name
  | round _ _ ih =>
      exact ih (progress.step proper) fun name =>
        Set.union_subset (contained name) (progress.found_subset_closed proper contained same closed name)

/-! ## The rounds end -/

/-- The rows of some arities that a component has not found. -/
def missing (component : Component) (arity : Name → Nat) (full : Facts) : Set (Name × Row) :=
  {entry | entry.1 ∈ component.names ∧ entry.2.length = arity entry.1 ∧ entry.2 ∉ full entry.1}

theorem finite_missing (arity : Name → Nat) (full : Facts) : (component.missing arity full).Finite := by
  have : Finite Int64 := Finite.of_injective (fun word : Int64 => word.toBitVec.toFin) fun left right same =>
    Int64.toBitVec_inj.1 (BitVec.toFin_inj.1 same)
  refine Set.Finite.subset (component.names.finite_toSet.biUnion fun name _ =>
    (List.finite_length_eq Int64 (arity name)).image (Prod.mk name)) ?_
  rintro ⟨name, row⟩ ⟨inside, length, _⟩
  exact Set.mem_biUnion inside ⟨row, length, rfl⟩

/-- As there are finitely many rows of every arity, the rounds end. -/
theorem exists_saturates {arity : Name → Nat}
    (arities : ∀ clause ∈ component.recursive, clause.head.args.length = arity clause.head.relation)
    (full delta : Facts) : ∃ final, component.Saturates ordinal full delta final := by
  induction size : (component.missing arity full).ncard using Nat.strong_induction_on generalizing full delta with
  | _ count ih =>
      by_cases isQuiet : component.Quiet ordinal full delta
      · exact ⟨full, .quiet isQuiet⟩
      · have less : (component.missing arity (full.union (component.found ordinal full delta))).ncard < count := by
          rw [← size]
          refine Set.ncard_lt_ncard ⟨?_, ?_⟩ (component.finite_missing arity full)
          · rintro ⟨name, row⟩ ⟨inside, length, notKnown⟩
            exact ⟨inside, length, fun known => notKnown (.inl known)⟩
          · simp only [Quiet, not_forall, ← Set.nonempty_iff_ne_empty] at isQuiet
            obtain ⟨name, inside, row, isFound⟩ := isQuiet
            obtain ⟨notFull, clause, isClause, rfl, _, _, _, _, derives⟩ := id isFound
            intro subset
            have length := derives.length.trans (arities clause isClause)
            have isMissing : (clause.head.relation, row) ∈ component.missing arity full := ⟨inside, length, notFull⟩
            exact (subset isMissing).2.2 (.inr isFound)
        obtain ⟨final, saturates⟩ := ih _ less _ (component.found ordinal full delta) rfl
        exact ⟨final, .round isQuiet saturates⟩

/-! ## Components one by one -/

/-- What a component adds to facts is the least that is closed under its clauses. -/
structure Completes (ordinal : String → Int64) (component : Component) (facts final : Facts) : Prop where
  given : ∀ name, facts name ⊆ final name
  outside : ∀ name ∉ component.names, final name = facts name
  closed : ∀ clause ∈ component.clauses, ∀ row, clause.Derives ordinal (fun _ => final) final row →
    row ∈ final clause.head.relation
  least : ∀ other negated : Facts, (∀ name, facts name ⊆ other name) →
    (∀ clause ∈ component.clauses, ∀ atom ∈ clause.negatedAtoms, negated atom.relation = facts atom.relation) →
    (∀ clause ∈ component.clauses, ∀ row, clause.Derives ordinal (fun _ => other) negated row →
      row ∈ other clause.head.relation) →
    ∀ name, final name ⊆ other name

theorem seeded_outside (proper : component.Proper) (facts : Facts) {name : Name}
    (outside : name ∉ component.names) : component.seeded ordinal facts name = facts name := by
  refine Set.union_eq_self_of_subset_right ?_
  rintro row ⟨clause, isClause, rfl, _⟩
  exact absurd (proper.head clause (List.mem_append_left _ isClause)) outside

/-- The clauses that run once do not derive more when their own component grows. -/
theorem closed_complete (proper : component.Proper) {facts final : Facts}
    (subset : ∀ name, component.seeded ordinal facts name ⊆ final name)
    (outside : ∀ name ∉ component.names, final name = component.seeded ordinal facts name) {clause : Clause}
    (isClause : clause ∈ component.complete) {row : Row}
    (derives : clause.Derives ordinal (fun _ => final) final row) : row ∈ final clause.head.relation := by
  have same {atom : Atom} (isRead : atom ∈ clause.positiveAtoms ∨ atom ∈ clause.negatedAtoms) :
      final atom.relation = facts atom.relation := by
    have notOwn := proper.complete clause isClause atom isRead
    rw [outside _ notOwn, seeded_outside proper facts notOwn]
  refine subset _ (.inr ⟨clause, isClause, rfl, derives.congr ?_ ?_⟩)
  · exact fun position atom atPosition => same (.inl (List.mem_of_getElem? atPosition))
  · exact fun atom member => same (.inr member)

theorem seeded_subset {facts other negated : Facts}
    (contained : ∀ name, facts name ⊆ other name)
    (same : ∀ clause ∈ component.complete, ∀ atom ∈ clause.negatedAtoms, negated atom.relation = facts atom.relation)
    (closed : ∀ clause ∈ component.complete, ∀ row, clause.Derives ordinal (fun _ => other) negated row →
      row ∈ other clause.head.relation) (name : Name) : component.seeded ordinal facts name ⊆ other name := by
  refine Set.union_subset (contained name) ?_
  rintro row ⟨clause, isClause, rfl, derives⟩
  refine closed clause isClause row ?_
  have more : clause.Derives ordinal (fun _ => other) facts row :=
    derives.mono fun _ atom _ => contained atom.relation
  exact more.congr (fun _ _ _ => rfl) fun atom member => (same clause isClause atom member).symm

/-- The evaluation of a component completes the facts. -/
theorem Evaluates.completes (proper : component.Proper) {facts final : Facts}
    (evaluates : component.Evaluates ordinal facts final) : component.Completes ordinal facts final := by
  have rounds : (∀ name, component.seeded ordinal facts name ⊆ final name) ∧
      (∀ name ∉ component.names, final name = component.seeded ordinal facts name) ∧
      (∀ clause ∈ component.recursive, ∀ row, clause.Derives ordinal (fun _ => final) final row →
        row ∈ final clause.head.relation) ∧
      ∀ other negated : Facts, (∀ name, component.seeded ordinal facts name ⊆ other name) →
        (∀ clause ∈ component.recursive, ∀ atom ∈ clause.negatedAtoms,
          negated atom.relation = component.seeded ordinal facts atom.relation) →
        (∀ clause ∈ component.recursive, ∀ row, clause.Derives ordinal (fun _ => other) negated row →
          row ∈ other clause.head.relation) →
        ∀ name, final name ⊆ other name := by
    rw [Evaluates] at evaluates
    split at evaluates
    · have progress : Progress ordinal component _ _ _ := .start proper (component.seeded ordinal facts)
      obtain ⟨subset, outside, closed⟩ := Saturates.closed proper evaluates progress
      exact ⟨subset, outside, closed, fun other negated contained same isClosed =>
        Saturates.least proper evaluates progress contained same isClosed⟩
    · next straight =>
        have none : component.recursive = [] := Decidable.byContradiction fun some => straight (proper.repeats some)
        rw [none, evaluates]
        exact ⟨fun _ => Set.Subset.refl _, fun _ _ => rfl, fun _ isClause => absurd isClause List.not_mem_nil,
          fun _ _ contained _ _ => contained⟩
  obtain ⟨subset, outside, closed, least⟩ := rounds
  constructor
  · exact fun name => Set.subset_union_left.trans (subset name)
  · exact fun name notOwn => (outside name notOwn).trans (seeded_outside proper facts notOwn)
  · intro clause isClause row derives
    rcases List.mem_append.1 isClause with complete | recursive
    · exact closed_complete proper subset outside complete derives
    · exact closed clause recursive row derives
  · intro other negated contained same isClosed
    refine least other negated ?_ ?_ fun clause isClause => isClosed clause (List.mem_append_right _ isClause)
    · exact seeded_subset contained (fun clause isClause => same clause (List.mem_append_left _ isClause))
        fun clause isClause =>
        isClosed clause (List.mem_append_left _ isClause)
    · intro clause isClause atom member
      rw [same clause (List.mem_append_right _ isClause) atom member,
        seeded_outside proper facts (proper.negated clause isClause atom member)]

/-- A component whose clauses derive rows of some arity for each relation has an evaluation. -/
theorem exists_evaluates {arity : Name → Nat}
    (arities : ∀ clause ∈ component.recursive, clause.head.args.length = arity clause.head.relation)
    (facts : Facts) : ∃ final, component.Evaluates ordinal facts final := by
  simp only [Evaluates]
  split
  · exact exists_saturates arities _ _
  · exact ⟨_, rfl⟩

end Component

/-- Components in an order in which each reads only itself and earlier ones. -/
def Layered : List Component → Prop
  | [] => True
  | component :: rest =>
      component.Proper ∧
        (∀ later ∈ rest, ∀ clause ∈ component.clauses, ∀ atom,
          atom ∈ clause.positiveAtoms ∨ atom ∈ clause.negatedAtoms → atom.relation ∉ later.names) ∧
        Layered rest

theorem exists_evaluatesTo {arity : Name → Nat} {components : List Component}
    (arities : ∀ component ∈ components, ∀ clause ∈ component.recursive,
      clause.head.args.length = arity clause.head.relation) (facts : Facts) :
    ∃ final, EvaluatesTo ordinal components facts final := by
  induction components generalizing facts with
  | nil => exact ⟨facts, rfl⟩
  | cons component rest ih =>
      have exists_middle : ∃ middle, component.Evaluates ordinal facts middle :=
        Component.exists_evaluates (arities component List.mem_cons_self) facts
      obtain ⟨middle, evaluates⟩ := exists_middle
      obtain ⟨final, onward⟩ := ih (fun other member => arities other (List.mem_cons_of_mem _ member)) middle
      exact ⟨final, middle, evaluates, onward⟩

/-- What layered components evaluate to is closed under their clauses, and least. -/
theorem EvaluatesTo.completes {components : List Component} (layered : Layered components) {facts final : Facts}
    (evaluates : EvaluatesTo ordinal components facts final) :
    (∀ name, facts name ⊆ final name) ∧
      (∀ name, (∀ component ∈ components, name ∉ component.names) → final name = facts name) ∧
      (∀ component ∈ components, ∀ clause ∈ component.clauses, ∀ row,
        clause.Derives ordinal (fun _ => final) final row → row ∈ final clause.head.relation) ∧
      ∀ other : Facts, (∀ name, facts name ⊆ other name) →
        (∀ component ∈ components, ∀ clause ∈ component.clauses, ∀ row,
          clause.Derives ordinal (fun _ => other) final row → row ∈ other clause.head.relation) →
        ∀ name, final name ⊆ other name := by
  induction components generalizing facts with
  | nil =>
      cases evaluates
      exact ⟨fun _ => Set.Subset.refl _, fun _ _ => rfl, fun _ member => absurd member List.not_mem_nil,
        fun _ contained _ => contained⟩
  | cons component rest ih =>
      obtain ⟨middle, first, onward⟩ := evaluates
      obtain ⟨proper, apart, layered⟩ := layered
      obtain ⟨given, outside, closed, least⟩ := first.completes proper
      obtain ⟨given', outside', closed', least'⟩ := ih layered onward
      have same {clause : Clause} (isClause : clause ∈ component.clauses) {atom : Atom}
          (isRead : atom ∈ clause.positiveAtoms ∨ atom ∈ clause.negatedAtoms) :
          final atom.relation = middle atom.relation :=
        outside' _ fun later member => apart later member clause isClause atom isRead
      refine ⟨fun name => (given name).trans (given' name), fun name notIn => ?_, ?_, ?_⟩
      · rw [outside' name fun later member => notIn later (List.mem_cons_of_mem _ member),
          outside name (notIn component List.mem_cons_self)]
      · intro other member clause isClause row derives
        rcases List.mem_cons.1 member with rfl | inRest
        · refine given' _ (closed clause isClause row (derives.congr ?_ ?_))
          · exact fun position atom atPosition => same isClause (.inl (List.mem_of_getElem? atPosition))
          · exact fun atom negated => same isClause (.inr negated)
        · exact closed' other inRest clause isClause row derives
      · intro other contained isClosed
        refine least' other ?_ fun later member => isClosed later (List.mem_cons_of_mem _ member)
        refine least other final contained (fun clause isClause atom member => ?_)
          (isClosed component List.mem_cons_self)
        rw [same isClause (.inr member), outside _ (proper.not_own isClause member)]

theorem closed_iff {clauses : List Clause} {given negated facts : Facts} :
    Closed ordinal clauses given negated facts ↔
      (∀ name, given name ⊆ facts name) ∧
        ∀ clause ∈ clauses, ∀ row, clause.Derives ordinal (fun _ => facts) negated row →
          row ∈ facts clause.head.relation := by
  simp only [Clause.derives_iff]
  constructor
  · rintro ⟨contained, closed⟩
    refine ⟨contained, ?_⟩
    rintro clause isClause _ ⟨valuation, body, rfl⟩
    exact closed clause isClause valuation body
  · rintro ⟨contained, closed⟩
    exact ⟨contained, fun clause isClause valuation body => closed clause isClause _ ⟨valuation, body, rfl⟩⟩

/-- What layered components evaluate to is the model of their clauses with itself for the negated atoms. -/
theorem EvaluatesTo.eq_leastModel {components : List Component} (layered : Layered components)
    {clauses : List Clause}
    (all : ∀ clause, clause ∈ clauses ↔ ∃ component ∈ components, clause ∈ component.clauses)
    {given final : Facts} (evaluates : EvaluatesTo ordinal components given final) (name : Name) :
    final name = leastModel ordinal clauses given final name := by
  obtain ⟨contained, _, closed, least⟩ := evaluates.completes layered
  apply Set.Subset.antisymm
  · have model : Closed ordinal clauses given final (leastModel ordinal clauses given final) :=
      leastModel_closed
    obtain ⟨containedToo, closedToo⟩ := closed_iff.1 model
    exact least _ containedToo (fun component member clause isClause =>
      closedToo clause ((all clause).2 ⟨component, member, isClause⟩)) name
  · refine leastModel_subset (closed_iff.2 ⟨contained, fun clause isClause => ?_⟩) name
    obtain ⟨component, member, isOwn⟩ := (all clause).1 isClause
    exact closed component member clause isOwn

end DatalogRam
