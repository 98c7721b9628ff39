import DatalogRam.Proofs.Datalog.Model

/-!
# Semi-naive evaluation

A component is evaluated on sets of facts: first the clauses that do not read it, and if it reads itself, then
rounds of the others, each of which reads the facts of the previous round in one atom, until a round finds
nothing. `Component.Evaluates` and `EvaluatesTo` are relations because the rounds need not end; where they end,
the result is unique.
-/

namespace DatalogRam

open Machine (Row)

/-- A clause derives a row: its body holds, where each positive atom has facts of its own. -/
def Clause.Derives (ordinal : String → Int64) (clause : Clause) (positive : Nat → Facts) (negated : Facts)
    (row : Row) : Prop :=
  ∃ valuation : Valuation,
    (∀ position atom, clause.positiveAtoms[position]? = some atom →
      ∃ row ∈ positive position atom.relation, Argument.Match ordinal valuation atom.args row) ∧
    (∀ literal ∈ clause.body, literal.positiveAtom? = none →
      literal.Holds ordinal valuation (fun _ => ∅) negated) ∧
    row = clause.headRow ordinal valuation

/-- Facts of either kind. -/
def Facts.union (facts more : Facts) : Facts :=
  fun name => facts name ∪ more name

/-- The facts of some relations only. -/
def Facts.within (names : List Name) (facts : Facts) : Facts :=
  fun name => {row | name ∈ names ∧ row ∈ facts name}

/-- The facts that one atom reads in place of all. -/
def atPosition (full delta : Facts) (position : Nat) : Nat → Facts :=
  fun other => if other = position then delta else full

/-- Relations that are evaluated together, with their clauses. -/
structure Component where
  names : List Name
  /-- The clauses that are run once. -/
  complete : List Clause
  /-- The clauses that are run in rounds. -/
  recursive : List Clause
  /-- Whether there are rounds. -/
  repeats : Bool

namespace Component

variable (ordinal : String → Int64) (component : Component)

/-- What some clauses derive from facts. -/
def derived (clauses : List Clause) (facts : Facts) : Facts := fun name =>
  {row | ∃ clause ∈ clauses, clause.head.relation = name ∧ clause.Derives ordinal (fun _ => facts) facts row}

/-- The facts after the clauses that are run once. -/
def seeded (facts : Facts) : Facts :=
  facts.union (derived ordinal component.complete facts)

/-- What a round finds: rows that are new, and derived from a row of the previous round. -/
def found (full delta : Facts) : Facts := fun name =>
  {row | row ∉ full name ∧ ∃ clause ∈ component.recursive, clause.head.relation = name ∧
    ∃ position atom, clause.positiveAtoms[position]? = some atom ∧ atom.relation ∈ component.names ∧
      clause.Derives ordinal (atPosition full delta position) full row}

/-- A round finds nothing. -/
def Quiet (full delta : Facts) : Prop :=
  ∀ name ∈ component.names, component.found ordinal full delta name = ∅

/-- Rounds lead from all facts and those of the previous round to a round that finds nothing. -/
inductive Saturates : Facts → Facts → Facts → Prop where
  | quiet {full delta : Facts} : component.Quiet ordinal full delta → Saturates full delta full
  | round {full delta final : Facts} : ¬component.Quiet ordinal full delta →
      Saturates (full.union (component.found ordinal full delta)) (component.found ordinal full delta) final →
        Saturates full delta final

/-- The evaluation of a component ends with some facts. -/
def Evaluates (facts final : Facts) : Prop :=
  let seeds := component.seeded ordinal facts
  if component.repeats then component.Saturates ordinal seeds (seeds.within component.names) final
  else final = seeds

end Component

/-- The evaluation of components one after another ends with some facts. -/
def EvaluatesTo (ordinal : String → Int64) : List Component → Facts → Facts → Prop
  | [], facts, final => final = facts
  | component :: rest, facts, final =>
      ∃ middle, component.Evaluates ordinal facts middle ∧ EvaluatesTo ordinal rest middle final

variable {ordinal : String → Int64} {component : Component}

theorem Component.Saturates.unique {full delta final other : Facts}
    (first : component.Saturates ordinal full delta final)
    (second : component.Saturates ordinal full delta other) : final = other := by
  induction first with
  | quiet isQuiet =>
      cases second with
      | quiet _ => rfl
      | round notQuiet _ => exact absurd isQuiet notQuiet
  | round notQuiet _ ih =>
      cases second with
      | quiet isQuiet => exact absurd isQuiet notQuiet
      | round _ rest => exact ih rest

theorem Component.Evaluates.unique {facts final other : Facts} (first : component.Evaluates ordinal facts final)
    (second : component.Evaluates ordinal facts other) : final = other := by
  rw [Component.Evaluates] at first second
  split at first
  · next repeats =>
      rw [if_pos repeats] at second
      exact Component.Saturates.unique first second
  · next once =>
      rw [if_neg once] at second
      rw [first, second]

theorem EvaluatesTo.unique {components : List Component} {facts final other : Facts}
    (first : EvaluatesTo ordinal components facts final)
    (second : EvaluatesTo ordinal components facts other) : final = other := by
  induction components generalizing facts with
  | nil => exact Eq.trans first (Eq.symm second)
  | cons component rest ih =>
      obtain ⟨middle, evaluates, onward⟩ := first
      obtain ⟨middle', evaluates', onward'⟩ := second
      obtain rfl := evaluates.unique evaluates'
      exact ih onward onward'

/-- A derivation depends on the facts that the body reads only. -/
theorem Clause.Derives.congr {clause : Clause} {positive other : Nat → Facts} {negated less : Facts} {row : Row}
    (samePositive : ∀ position atom, clause.positiveAtoms[position]? = some atom →
      positive position atom.relation = other position atom.relation)
    (sameNegated : ∀ atom ∈ clause.negatedAtoms, negated atom.relation = less atom.relation)
    (derives : clause.Derives ordinal positive negated row) : clause.Derives ordinal other less row := by
  obtain ⟨valuation, atoms, others, isHead⟩ := derives
  refine ⟨valuation, fun position atom atPosition => ?_, fun literal member isOther => ?_, isHead⟩
  · rw [← samePositive position atom atPosition]
    exact atoms position atom atPosition
  · have holds := others literal member isOther
    cases literal with
    | positive relation args => cases isOther
    | negative relation args =>
        rw [Literal.Holds] at holds ⊢
        have isAtom : (⟨relation, args⟩ : Atom) ∈ clause.negatedAtoms :=
          List.mem_filterMap.2 ⟨_, member, rfl⟩
        rwa [← sameNegated _ isAtom]
    | comparison op left right => exact holds
    | truth value => exact holds

end DatalogRam
