import DatalogRam.Proofs.Datalog.Fragment
import DatalogRam.Proofs.Datalog.Model
import DatalogRam.Proofs.Lowering.Definite
import DatalogRam.Proofs.Lowering.Readable

/-!
# The meaning of aggregates

An aggregate ranges over the rows of one relation. A variable that the clause around it binds keeps its word, and any
other is read off the row, where the aggregate's atom has it first. The value of the aggregate is its function, folded
over the words of the target for the rows that match the atom and satisfy the rest of the aggregate's body.
`Clause.Concludes` says when a clause with aggregates has an instance, and `Clause.instances` are the heads of these.
-/

namespace DatalogRam

open Lowering Machine

/-! ## Words of arguments with aggregates -/

mutual

/-- Terms that may also have aggregates where they have variables. -/
def Argument.isComputed : Argument → Bool
  | .var _ => true
  | .constant _ => true
  | .operator op args => op.isTotalOn args.length && Argument.areComputed args
  | .aggregate .. => true
  | _ => false

def Argument.areComputed : List Argument → Bool
  | [] => true
  | arg :: args => arg.isComputed && Argument.areComputed args

end

mutual

/-- The word of an argument, given those of variables and aggregates. -/
def Argument.valueWith (ordinal : String → Int64) (valuation : Valuation) (results : Aggregate → Int64) :
    Argument → Int64
  | .var name => valuation name
  | .constant value => value.word ordinal
  | .operator op args => op.onWords (Argument.valuesWith ordinal valuation results args)
  | .aggregate function target body => results ⟨function, target, body⟩
  | _ => 0

def Argument.valuesWith (ordinal : String → Int64) (valuation : Valuation) (results : Aggregate → Int64) :
    List Argument → List Int64
  | [] => []
  | arg :: args =>
      arg.valueWith ordinal valuation results :: Argument.valuesWith ordinal valuation results args

end

section Words

variable {ordinal : String → Int64} {valuation other : Valuation} {results others : Aggregate → Int64}

theorem Argument.areComputed_iff {args : List Argument} :
    Argument.areComputed args = true ↔ ∀ arg ∈ args, arg.isComputed = true := by
  induction args with
  | nil => simp [Argument.areComputed]
  | cons arg args ih => simp [Argument.areComputed, ih]

theorem Argument.length_valuesWith (args : List Argument) :
    (Argument.valuesWith ordinal valuation results args).length = args.length := by
  induction args with
  | nil => rfl
  | cons arg args ih => rw [Argument.valuesWith, List.length_cons, ih, List.length_cons]

mutual

theorem Argument.isComputed_of_isTerm : ∀ {arg : Argument}, arg.isTerm = true → arg.isComputed = true
  | .var _, _ => rfl
  | .constant _, _ => rfl
  | .operator _ args, isTerm => by
      simp only [Argument.isTerm, Bool.and_eq_true] at isTerm
      rw [Argument.isComputed, isTerm.1, Argument.areComputed_of_areTerms isTerm.2]
      rfl
  | .unnamed, isTerm => by simp [Argument.isTerm] at isTerm
  | .external _ _, isTerm => by simp [Argument.isTerm] at isTerm
  | .aggregate _ _ _, _ => rfl
  | .record _, isTerm => by simp [Argument.isTerm] at isTerm
  | .counter, isTerm => by simp [Argument.isTerm] at isTerm

theorem Argument.areComputed_of_areTerms :
    ∀ {args : List Argument}, Argument.areTerms args = true → Argument.areComputed args = true
  | [], _ => rfl
  | arg :: args, areTerms => by
      simp only [Argument.areTerms, Bool.and_eq_true] at areTerms
      rw [Argument.areComputed, Argument.isComputed_of_isTerm areTerms.1, Argument.areComputed_of_areTerms areTerms.2]
      rfl

end

theorem Argument.mem_ownVariablesOfAll {name : String} {args : List Argument} :
    name ∈ Argument.ownVariablesOfAll args ↔ ∃ arg ∈ args, name ∈ Argument.ownVariables arg := by
  induction args with
  | nil => simp [Argument.ownVariablesOfAll]
  | cons arg args ih => simp [Argument.ownVariablesOfAll, ih]

mutual

/-- The word of an argument depends on its own variables and on its aggregates. -/
theorem Argument.valueWith_congr :
    ∀ {arg : Argument}, (∀ name ∈ Argument.ownVariables arg, valuation name = other name) →
      (∀ aggregate ∈ Argument.aggregates arg, results aggregate = others aggregate) →
      arg.valueWith ordinal valuation results = arg.valueWith ordinal other others
  | .var name, names, _ => names name (by simp [Argument.ownVariables])
  | .operator op args, names, aggregates => by
      rw [Argument.valueWith, Argument.valueWith, Argument.valuesWith_congr names aggregates]
  | .aggregate function target body, _, aggregates => aggregates _ (by simp [Argument.aggregates])
  | .unnamed, _, _ => rfl
  | .constant _, _, _ => rfl
  | .external _ _, _, _ => rfl
  | .record _, _, _ => rfl
  | .counter, _, _ => rfl

theorem Argument.valuesWith_congr :
    ∀ {args : List Argument}, (∀ name ∈ Argument.ownVariablesOfAll args, valuation name = other name) →
      (∀ aggregate ∈ Argument.aggregatesOfAll args, results aggregate = others aggregate) →
      Argument.valuesWith ordinal valuation results args = Argument.valuesWith ordinal other others args
  | [], _, _ => rfl
  | arg :: args, names, aggregates => by
      rw [Argument.valuesWith, Argument.valuesWith,
        Argument.valueWith_congr (fun name member => names name (List.mem_append_left _ member))
          fun aggregate member => aggregates aggregate (List.mem_append_left _ member),
        Argument.valuesWith_congr (fun name member => names name (List.mem_append_right _ member))
          fun aggregate member => aggregates aggregate (List.mem_append_right _ member)]

end

mutual

/-- The word of a term leaves aggregates out of account. -/
theorem Argument.value_eq_valueWith :
    ∀ arg : Argument, arg.value ordinal valuation = arg.valueWith ordinal valuation fun _ => 0
  | .operator op args => by
      rw [Argument.value, Argument.valueWith, Argument.values_eq_valuesWith args]
  | .var _ | .unnamed | .constant _ | .external _ _ | .aggregate _ _ _ | .record _ | .counter => rfl

theorem Argument.values_eq_valuesWith :
    ∀ args : List Argument,
      Argument.values ordinal valuation args = Argument.valuesWith ordinal valuation (fun _ => 0) args
  | [] => rfl
  | arg :: args => by
      rw [Argument.values, Argument.valuesWith, Argument.value_eq_valueWith arg, Argument.values_eq_valuesWith args]

end

/-- A term has no aggregates. -/
theorem Argument.valueWith_of_isTerm {arg : Argument} (isTerm : arg.isTerm = true) :
    arg.valueWith ordinal valuation results = arg.value ordinal valuation := by
  rw [Argument.value_eq_valueWith]
  refine Argument.valueWith_congr (fun _ _ => rfl) fun aggregate member => ?_
  rw [aggregates_of_isTerm isTerm] at member
  cases member

theorem Argument.match_congr {args : List Argument} {row : Row}
    (same : ∀ name ∈ Argument.ownVariablesOfAll args, valuation name = other name) :
    Argument.Match ordinal valuation args row ↔ Argument.Match ordinal other args row := by
  induction args generalizing row with
  | nil => cases row <;> rfl
  | cons arg args ih =>
      cases row with
      | nil => rfl
      | cons word row =>
          have first : arg.value ordinal valuation = arg.value ordinal other := by
            rw [Argument.value_eq_valueWith, Argument.value_eq_valueWith]
            exact Argument.valueWith_congr (fun name member => same name (List.mem_append_left _ member)) fun _ _ => rfl
          rw [Argument.Match, Argument.Match, first, ih fun name member => same name (List.mem_append_right _ member)]

end Words

/-! ## Literals -/

/-- The rows of each relation, as facts. -/
def factsOf (stored : Name → List Row) : Facts := fun name => {row | row ∈ stored name}

/-- A literal whose atoms have direct arguments, or terms if it is negated, and whose operands are of some class. -/
def Literal.Plain (operand : Argument → Bool) : Literal → Prop
  | .positive _ args => ∀ arg ∈ args, arg.isDirect = true
  | .negative _ args => ∀ arg ∈ args, arg = .unnamed ∨ arg.isTerm = true
  | .comparison _ left right => operand left = true ∧ operand right = true
  | .truth _ => True

theorem Literal.Plain.computed {literal : Literal} (terms : literal.Plain Argument.isTerm) :
    literal.Plain Argument.isComputed := by
  cases literal with
  | comparison op left right =>
      exact ⟨Argument.isComputed_of_isTerm terms.1, Argument.isComputed_of_isTerm terms.2⟩
  | _ => exact terms

/-- A literal over terms has no aggregates. -/
theorem Literal.Plain.aggregates_eq {literal : Literal} (terms : literal.Plain Argument.isTerm) :
    Literal.aggregates literal = [] := by
  cases literal with
  | positive relation args => exact aggregates_of_plain fun arg member => Argument.isDirect_plain (terms arg member)
  | negative relation args => exact aggregates_of_plain terms
  | comparison op left right =>
      rw [Literal.aggregates, aggregates_of_isTerm terms.1, aggregates_of_isTerm terms.2, List.nil_append]
  | truth value => rfl

theorem Clause.Simple.plain {clause : Clause} (simple : clause.Simple) {literal : Literal}
    (member : literal ∈ clause.body) : literal.Plain Argument.isTerm := by
  cases literal with
  | positive relation args => exact simple.positive ⟨relation, args⟩ (Clause.mem_positiveAtoms.2 member)
  | negative relation args => exact simple.negated ⟨relation, args⟩ (Clause.mem_negatedAtoms.2 member)
  | comparison op left right => exact simple.compared op left right member
  | truth value => trivial

/-- The variables of a literal that are not within an aggregate. -/
def Literal.ownVariables : Literal → List String
  | .positive _ args => Argument.ownVariablesOfAll args
  | .negative _ args => Argument.ownVariablesOfAll args
  | .comparison _ left right => Argument.ownVariables left ++ Argument.ownVariables right
  | .truth _ => []

/-- Whether a literal holds, given the words of variables and aggregates. -/
def Literal.HoldsWith (ordinal : String → Int64) (stored : Name → List Row) (valuation : Valuation)
    (results : Aggregate → Int64) : Literal → Prop
  | .comparison op left right =>
      op.holds (left.valueWith ordinal valuation results) (right.valueWith ordinal valuation results) = true
  | literal => literal.Holds ordinal valuation (factsOf stored) (factsOf stored)

/-! ## Values of aggregates -/

/-- The words of variables where an aggregate's atom with some arguments matches a row. -/
def Valuation.within (valuation : Valuation) (outer : String → Bool) (args : List Argument) (row : Row) : Valuation :=
  fun name => if outer name then valuation name else (row[args.idxOf (.var name)]?).getD 0

namespace Aggregate

/-- An aggregate whose body is read off rows or compares terms, and which folds a term. -/
structure Plain (aggregate : Aggregate) : Prop where
  body : ∀ literal ∈ aggregate.body, literal.Plain Argument.isTerm
  target : ∀ target, aggregate.target = some target → target.isTerm = true

/-- A row of the relation of an aggregate's atom is folded if it matches the atom and the body holds. -/
def Admits (ordinal : String → Int64) (stored : Name → List Row) (aggregate : Aggregate) (atom : Atom)
    (valuation : Valuation) (row : Row) : Prop :=
  Argument.Match ordinal valuation atom.args row ∧
    ∀ literal ∈ aggregate.body, literal.Holds ordinal valuation (factsOf stored) (factsOf stored)

/-- What is folded for a row. A count needs no target. -/
def folded (ordinal : String → Int64) (aggregate : Aggregate) (valuation : Valuation) : Int64 :=
  match aggregate.target with
  | none => 0
  | some target => target.value ordinal valuation

open Classical in
/-- The value of an aggregate, if there is one, where some variables are given outside. -/
noncomputable def result? (ordinal : String → Int64) (stored : Name → List Row) (outer : String → Bool)
    (valuation : Valuation) (aggregate : Aggregate) : Option Int64 :=
  match aggregate.body.filterMap Literal.positiveAtom? with
  | [atom] =>
      let words := valuation.within outer atom.args
      aggregate.function.fold
        (((stored atom.relation).filter fun row => aggregate.Admits ordinal stored atom (words row) row).map
          fun row => aggregate.folded ordinal (words row))
  | _ => none

end Aggregate

namespace Clause

/-- Whether a variable is an argument of a positive atom of the body. -/
def binds (clause : Clause) (name : String) : Bool :=
  clause.positiveAtoms.any fun atom => atom.args.contains (.var name)

/-- A clause has an instance with some words: its body holds, and every aggregate has its value. -/
structure Concludes (ordinal : String → Int64) (stored : Name → List Row) (clause : Clause) (valuation : Valuation)
    (results : Aggregate → Int64) : Prop where
  body : ∀ literal ∈ clause.body, literal.HoldsWith ordinal stored valuation results
  results : ∀ aggregate ∈ clauseAggregates clause,
    aggregate.result? ordinal stored clause.binds valuation = some (results aggregate)

/-- The heads of a clause's instances. -/
def instances (ordinal : String → Int64) (stored : Name → List Row) (clause : Clause) : Set Row :=
  {row | ∃ valuation results, clause.Concludes ordinal stored valuation results ∧
    row = Argument.valuesWith ordinal valuation results clause.head.args}

end Clause

/-! ## What they depend on -/

variable {ordinal : String → Int64} {stored later : Name → List Row} {valuation other : Valuation}

theorem Literal.holds_congr {literal : Literal}
    (same : ∀ atom, literal.atom? = some atom → later atom.relation = stored atom.relation) :
    literal.Holds ordinal valuation (factsOf later) (factsOf later) ↔
      literal.Holds ordinal valuation (factsOf stored) (factsOf stored) := by
  cases literal with
  | positive relation args => simp only [Literal.Holds, factsOf, same ⟨relation, args⟩ rfl]
  | negative relation args => simp only [Literal.Holds, factsOf, same ⟨relation, args⟩ rfl]
  | comparison op left right => rfl
  | truth value => rfl

theorem Literal.holdsWith_congr {literal : Literal} {results : Aggregate → Int64}
    (same : ∀ atom, literal.atom? = some atom → later atom.relation = stored atom.relation) :
    literal.HoldsWith ordinal later valuation results ↔ literal.HoldsWith ordinal stored valuation results := by
  cases literal with
  | comparison op left right => rfl
  | positive relation args => exact Literal.holds_congr same
  | negative relation args => exact Literal.holds_congr same
  | truth value => rfl

/-- A literal depends on its own variables and on its aggregates. -/
theorem Literal.holdsWith_congr_words {literal : Literal} {results others : Aggregate → Int64}
    (names : ∀ name ∈ literal.ownVariables, valuation name = other name)
    (aggregates : ∀ aggregate ∈ Literal.aggregates literal, results aggregate = others aggregate) :
    literal.HoldsWith ordinal stored valuation results ↔ literal.HoldsWith ordinal stored other others := by
  cases literal with
  | positive relation args => exact exists_congr fun row => and_congr_right fun _ => Argument.match_congr names
  | negative relation args =>
      exact not_congr (exists_congr fun row => and_congr_right fun _ => Argument.match_congr names)
  | comparison op left right =>
      rw [Literal.HoldsWith, Literal.HoldsWith,
        Argument.valueWith_congr (fun name member => names name (List.mem_append_left _ member))
          fun aggregate member => aggregates aggregate (List.mem_append_left _ member),
        Argument.valueWith_congr (fun name member => names name (List.mem_append_right _ member))
          fun aggregate member => aggregates aggregate (List.mem_append_right _ member)]
  | truth value => rfl

namespace Aggregate

variable {aggregate : Aggregate} {outer : String → Bool}

/-- The value of an aggregate depends on the rows of the relations in its body. -/
theorem result?_congr_stored
    (same : ∀ literal ∈ aggregate.body, ∀ atom, literal.atom? = some atom →
      later atom.relation = stored atom.relation) :
    aggregate.result? ordinal later outer valuation = aggregate.result? ordinal stored outer valuation := by
  have admits : aggregate.Admits ordinal later = aggregate.Admits ordinal stored := by
    funext atom words row
    refine propext (and_congr_right fun _ => ?_)
    exact forall_congr' fun literal => forall_congr' fun member => Literal.holds_congr (same literal member)
  unfold result?
  split
  · next atom single =>
      have member : atom ∈ aggregate.body.filterMap Literal.positiveAtom? := by
        rw [single]
        exact List.mem_singleton_self atom
      obtain ⟨literal, inBody, isAtom⟩ := List.mem_filterMap.1 member
      have isSame : later atom.relation = stored atom.relation := by
        refine same literal inBody atom ?_
        cases literal <;> cases isAtom
        rfl
      rw [isSame, admits]
  · rfl

/-- Of the variables outside it depends on those that are given. -/
theorem result?_congr (same : ∀ name, outer name = true → valuation name = other name) :
    aggregate.result? ordinal stored outer valuation = aggregate.result? ordinal stored outer other := by
  have within : valuation.within outer = other.within outer := by
    funext args row name
    rw [Valuation.within, Valuation.within]
    split
    · next isOuter => exact same name isOuter
    · rfl
  rw [result?, result?, within]

end Aggregate

theorem Clause.binds_iff {clause : Clause} {name : String} :
    clause.binds name = true ↔ ∃ atom ∈ clause.positiveAtoms, .var name ∈ atom.args := by
  rw [Clause.binds, List.any_eq_true]
  simp only [List.contains_iff_mem]

end DatalogRam
