import DatalogRam.Lowering.Slots
import DatalogRam.Proofs.Lowering.AggregateFrame

/-!
# Where wildcards stand

A definite clause has wildcards only as arguments of atoms in its body and in its aggregates, and no variables for
levels. So everything that its code evaluates has a value, and no slot is erased.
-/

namespace DatalogRam

open Lowering

mutual

/-- No wildcard is in the argument, except as an argument of an atom of its aggregates. -/
def Argument.isDefinite : Argument → Bool
  | .unnamed => false
  | .var _ | .constant _ | .counter => true
  | .operator _ args => Argument.areDefinite args
  | .external _ args => Argument.areDefinite args
  | .record args => Argument.areDefinite args
  | .aggregate _ target body => Argument.isDefiniteOption target && Literal.areDefinite body

def Argument.areDefinite : List Argument → Bool
  | [] => true
  | arg :: args => arg.isDefinite && Argument.areDefinite args

def Argument.isDefiniteOption : Option Argument → Bool
  | none => true
  | some arg => arg.isDefinite

/-- Each argument of an atom is a wildcard or definite. -/
def Argument.areAsked : List Argument → Bool
  | [] => true
  | arg :: args => (decide (arg = .unnamed) || arg.isDefinite) && Argument.areAsked args

def Literal.isDefinite : Literal → Bool
  | .positive _ args => Argument.areAsked args
  | .negative _ args => Argument.areAsked args
  | .comparison _ left right => left.isDefinite && right.isDefinite
  | .truth _ => true

def Literal.areDefinite : List Literal → Bool
  | [] => true
  | literal :: literals => literal.isDefinite && Literal.areDefinite literals

end

theorem Argument.areAsked_iff {args : List Argument} :
    Argument.areAsked args = true ↔ ∀ arg ∈ args, arg = .unnamed ∨ arg.isDefinite = true := by
  induction args with
  | nil => simp [Argument.areAsked]
  | cons arg args ih => simp [Argument.areAsked, ih]

theorem Literal.areDefinite_iff {literals : List Literal} :
    Literal.areDefinite literals = true ↔ ∀ literal ∈ literals, literal.isDefinite = true := by
  induction literals with
  | nil => simp [Literal.areDefinite]
  | cons literal literals ih => simp [Literal.areDefinite, ih]

/-- Wildcards are direct arguments of atoms only, and no variable stands for a level. -/
structure Clause.Definite (clause : Clause) : Prop where
  head : ∀ arg ∈ clause.head.args, arg.isDefinite = true
  body : ∀ literal ∈ clause.body, literal.isDefinite = true
  levels : ∀ name ∈ clauseVariables clause, isLevelVariable name = false

instance (clause : Clause) : Decidable clause.Definite :=
  decidable_of_iff
    ((∀ arg ∈ clause.head.args, arg.isDefinite = true) ∧ (∀ literal ∈ clause.body, literal.isDefinite = true) ∧
      ∀ name ∈ clauseVariables clause, isLevelVariable name = false)
    ⟨fun ⟨head, body, levels⟩ => ⟨head, body, levels⟩, fun definite => ⟨definite.head, definite.body, definite.levels⟩⟩

/-- Some negated atom of a clause has a wildcard. -/
def Clause.NegatesOpenly (clause : Clause) : Prop :=
  ∃ atom ∈ clause.negatedAtoms, .unnamed ∈ atom.args

instance (clause : Clause) : Decidable clause.NegatesOpenly :=
  inferInstanceAs (Decidable (∃ atom ∈ clause.negatedAtoms, .unnamed ∈ atom.args))

/-- The target and the body of an aggregate are definite. -/
def Aggregate.isDefinite (aggregate : Aggregate) : Bool :=
  aggregate.toArgument.isDefinite

mutual

theorem isDefinite_of_aggregates {aggregate : Aggregate} :
    ∀ arg : Argument, arg.isDefinite = true → aggregate ∈ Argument.aggregates arg → aggregate.isDefinite = true
  | .operator _ args, definite, member => isDefinite_of_aggregatesOfAll args definite member
  | .external _ args, definite, member => isDefinite_of_aggregatesOfAll args definite member
  | .record args, definite, member => isDefinite_of_aggregatesOfAll args definite member
  | .aggregate _ _ _, definite, member => by
      obtain rfl := List.mem_singleton.1 member
      exact definite
  | .var _, _, member | .unnamed, _, member | .constant _, _, member | .counter, _, member => by
      simp [Argument.aggregates] at member

theorem isDefinite_of_aggregatesOfAll {aggregate : Aggregate} :
    ∀ args : List Argument, Argument.areDefinite args = true → aggregate ∈ Argument.aggregatesOfAll args →
      aggregate.isDefinite = true
  | [], _, member => by simp [Argument.aggregatesOfAll] at member
  | arg :: args, definite, member => by
      simp only [Argument.areDefinite, Bool.and_eq_true] at definite
      rcases List.mem_append.1 member with here | later
      · exact isDefinite_of_aggregates arg definite.1 here
      · exact isDefinite_of_aggregatesOfAll args definite.2 later

end

theorem isDefinite_of_literalAggregates {aggregate : Aggregate} {literal : Literal}
    (definite : literal.isDefinite = true) (member : aggregate ∈ Literal.aggregates literal) :
    aggregate.isDefinite = true := by
  have ofAsked {args : List Argument} (asked : Argument.areAsked args = true)
      (isAggregate : aggregate ∈ Argument.aggregatesOfAll args) : aggregate.isDefinite = true := by
    obtain ⟨arg, isArg, inArg⟩ := Argument.mem_aggregatesOfAll.1 isAggregate
    rcases Argument.areAsked_iff.1 asked arg isArg with rfl | isDefinite
    · cases inArg
    · exact isDefinite_of_aggregates arg isDefinite inArg
  cases literal with
  | positive relation args => exact ofAsked definite member
  | negative relation args => exact ofAsked definite member
  | comparison op left right =>
      simp only [Literal.isDefinite, Bool.and_eq_true] at definite
      rcases List.mem_append.1 member with inLeft | inRight
      · exact isDefinite_of_aggregates left definite.1 inLeft
      · exact isDefinite_of_aggregates right definite.2 inRight
  | truth value => cases member

namespace Clause

variable {clause : Clause}

/-- The literals that the code of a clause evaluates: those of its body and those of its aggregates. -/
def evaluated (clause : Clause) : List Literal :=
  clause.body ++ (clauseAggregates clause).flatMap Aggregate.body

/-- The atoms that the code of a clause names. -/
def named (clause : Clause) : List Atom :=
  clause.head :: clause.evaluated.filterMap Literal.atom?

theorem mem_named {literal : Literal} {atom : Atom} (isLiteral : literal ∈ clause.evaluated)
    (isAtom : literal.atom? = some atom) : atom ∈ clause.named :=
  List.mem_cons_of_mem _ (List.mem_filterMap.2 ⟨literal, isLiteral, isAtom⟩)

theorem body_subset_evaluated (clause : Clause) : clause.body ⊆ clause.evaluated :=
  List.subset_append_left _ _

theorem mem_evaluated {aggregate : Aggregate} (isAggregate : aggregate ∈ clauseAggregates clause) {literal : Literal}
    (isLiteral : literal ∈ aggregate.body) : literal ∈ clause.evaluated :=
  List.mem_append_right _ (List.mem_flatMap.2 ⟨aggregate, isAggregate, isLiteral⟩)

namespace Definite

theorem aggregate (definite : clause.Definite) {aggregate : Aggregate}
    (member : aggregate ∈ clauseAggregates clause) : aggregate.isDefinite = true := by
  rw [clauseAggregates, List.mem_eraseDups] at member
  rcases List.mem_append.1 member with inHead | inBody
  · obtain ⟨arg, isArg, inArg⟩ := Argument.mem_aggregatesOfAll.1 inHead
    exact isDefinite_of_aggregates arg (definite.head arg isArg) inArg
  · obtain ⟨literal, isLiteral, inLiteral⟩ := List.mem_flatMap.1 inBody
    exact isDefinite_of_literalAggregates (definite.body literal isLiteral) inLiteral

theorem evaluated (definite : clause.Definite) {literal : Literal} (member : literal ∈ clause.evaluated) :
    literal.isDefinite = true := by
  rcases List.mem_append.1 member with inBody | inAggregate
  · exact definite.body literal inBody
  · obtain ⟨aggregate, isAggregate, isLiteral⟩ := List.mem_flatMap.1 inAggregate
    have both := definite.aggregate isAggregate
    simp only [Aggregate.isDefinite, Aggregate.toArgument, Argument.isDefinite, Bool.and_eq_true] at both
    exact Literal.areDefinite_iff.1 both.2 literal isLiteral

theorem target (definite : clause.Definite) {aggregate : Aggregate} (isAggregate : aggregate ∈ clauseAggregates clause)
    {target : Argument} (isTarget : aggregate.target = some target) : target.isDefinite = true := by
  have both := definite.aggregate isAggregate
  simp only [Aggregate.isDefinite, Aggregate.toArgument, Argument.isDefinite, isTarget, Argument.isDefiniteOption,
    Bool.and_eq_true] at both
  exact both.1

/-- A definite clause erases no slot. -/
theorem erased_eq (definite : clause.Definite) : (Slots.ofClause clause).erased = [] := by
  have none : (clauseVariables clause).filter isLevelVariable = [] :=
    List.filter_eq_nil_iff.2 fun name member => by simp [definite.levels name member]
  simp [Slots.ofClause, Slots.addUnderscores, Slots.addNamed, Slots.empty, none]

end Definite

end Clause

end DatalogRam
