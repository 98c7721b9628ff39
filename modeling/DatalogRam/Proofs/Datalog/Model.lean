import DatalogRam.Analysis.Reach
import DatalogRam.Datalog.Program
import DatalogRam.Machine.Arithmetic
import DatalogRam.Machine.Rows
import Mathlib.Data.Set.Basic

/-!
# The meaning of clauses

Facts are sets of rows, one for each relation. A body holds under a valuation of its variables, and the least
facts that contain given ones and are closed under clauses are their model, if it is fixed what negated atoms
refer to. With a stratification the negated atoms refer to lower ranks, and the models are built rank by rank.

`stratifiedModel_eq_leastModel` and `eq_stratifiedModel` say that this stratified model is the only set of facts
that is the model of the clauses with itself for the negated atoms. So it does not depend on the stratification.
-/

namespace DatalogRam

open Machine (Row)

/-- The rows of each relation. -/
abbrev Facts := Name → Set Row

/-- The words of the variables. -/
abbrev Valuation := String → Int64

/-- The word of a constant. Texts are read by their ordinals. -/
def Constant.word (ordinal : String → Int64) : Constant → Int64
  | .number value => value
  | .unsigned value => value.toInt64
  | .float value => value.bits.toInt64
  | .string text => ordinal text
  | .nil => 0

/-- The result of arithmetic on words. -/
def Operator.onWords : Operator → List Int64 → Int64
  | .add, [left, right] => left + right
  | .sub, [left, right] => left - right
  | .mul, [left, right] => left * right
  | .neg, [value] => -value
  | .max, values => (foldFirst greater values).getD 0
  | .min, values => (foldFirst lesser values).getD 0
  | _, _ => 0

mutual

/-- The word of a term. -/
def Argument.value (ordinal : String → Int64) (valuation : Valuation) : Argument → Int64
  | .var name => valuation name
  | .constant value => value.word ordinal
  | .operator op args => op.onWords (Argument.values ordinal valuation args)
  | _ => 0

def Argument.values (ordinal : String → Int64) (valuation : Valuation) : List Argument → List Int64
  | [] => []
  | arg :: args => arg.value ordinal valuation :: Argument.values ordinal valuation args

end

theorem Argument.values_eq_map (ordinal : String → Int64) (valuation : Valuation) (args : List Argument) :
    Argument.values ordinal valuation args = args.map (Argument.value ordinal valuation) := by
  induction args with
  | nil => rfl
  | cons arg args ih => rw [Argument.values, ih, List.map_cons]

/-- Whether a row has the words of an atom's arguments. -/
def Argument.Match (ordinal : String → Int64) (valuation : Valuation) : List Argument → Row → Prop
  | [], [] => True
  | arg :: args, word :: row =>
      (arg = .unnamed ∨ arg.value ordinal valuation = word) ∧ Argument.Match ordinal valuation args row
  | _, _ => False

/-- Whether a literal holds, with facts for positive and for negated atoms. -/
def Literal.Holds (ordinal : String → Int64) (valuation : Valuation) (facts negated : Facts) :
    Literal → Prop
  | .positive relation args => ∃ row ∈ facts relation, Argument.Match ordinal valuation args row
  | .negative relation args => ¬∃ row ∈ negated relation, Argument.Match ordinal valuation args row
  | .comparison op left right =>
      op.holds (left.value ordinal valuation) (right.value ordinal valuation) = true
  | .truth value => value = true

/-- The row that a clause derives. -/
def Clause.headRow (ordinal : String → Int64) (valuation : Valuation) (clause : Clause) : Row :=
  Argument.values ordinal valuation clause.head.args

/-- Facts that contain given ones and the head of every clause whose body holds. -/
structure Closed (ordinal : String → Int64) (clauses : List Clause) (given negated facts : Facts) :
    Prop where
  given : ∀ name, given name ⊆ facts name
  clauses : ∀ clause ∈ clauses, ∀ valuation,
    (∀ literal ∈ clause.body, literal.Holds ordinal valuation facts negated) →
      clause.headRow ordinal valuation ∈ facts clause.head.relation

/-- The least facts that contain given ones and are closed under clauses. -/
def leastModel (ordinal : String → Int64) (clauses : List Clause) (given negated : Facts) : Facts :=
  fun name => {row | ∀ facts, Closed ordinal clauses given negated facts → row ∈ facts name}

/-- Ranks of relations: a clause reads no higher rank, and negates lower ones only. -/
structure Stratification (clauses : List Clause) where
  rank : Name → Nat
  positive : ∀ clause ∈ clauses, ∀ relation args, .positive relation args ∈ clause.body →
    rank relation ≤ rank clause.head.relation
  negated : ∀ clause ∈ clauses, ∀ relation args, .negative relation args ∈ clause.body →
    rank relation < rank clause.head.relation

/-- The model of the relations below a rank, built rank by rank. -/
def modelBelow (ordinal : String → Int64) (clauses : List Clause) (given : Facts)
    (stratification : Stratification clauses) : Nat → Facts
  | 0 => fun _ => ∅
  | bound + 1 =>
      leastModel ordinal
        (clauses.filter fun clause => decide (stratification.rank clause.head.relation ≤ bound)) given
        (modelBelow ordinal clauses given stratification bound)

/-- The least stratified model: each relation as it is in the model up to its own rank. -/
def stratifiedModel (ordinal : String → Int64) (clauses : List Clause) (given : Facts)
    (stratification : Stratification clauses) : Facts :=
  fun name => modelBelow ordinal clauses given stratification (stratification.rank name + 1) name

section

variable {ordinal : String → Int64} {clauses : List Clause} {given negated : Facts}

theorem Literal.Holds.mono {valuation : Valuation} {facts more : Facts} {literal : Literal}
    (subset : ∀ name, facts name ⊆ more name) (holds : literal.Holds ordinal valuation facts negated) :
    literal.Holds ordinal valuation more negated := by
  cases literal with
  | positive relation args =>
      obtain ⟨row, member, isMatch⟩ := holds
      exact ⟨row, subset relation member, isMatch⟩
  | negative relation args => exact holds
  | comparison op left right => exact holds
  | truth value => exact holds

/-- The least model is the least among the closed facts. -/
theorem leastModel_subset {facts : Facts} (closed : Closed ordinal clauses given negated facts)
    (name : Name) : leastModel ordinal clauses given negated name ⊆ facts name :=
  fun _ member => member facts closed

/-- The least model is closed itself. -/
theorem leastModel_closed : Closed ordinal clauses given negated (leastModel ordinal clauses given negated)
    where
  given := fun name _ member _ closed => closed.given name member
  clauses := by
    intro clause isClause valuation body facts closed
    refine closed.clauses clause isClause valuation fun literal member => ?_
    exact (body literal member).mono (leastModel_subset closed)

/-- Up to a rank, the least model depends on the clauses up to that rank and on what is negated below it. -/
theorem leastModel_subset_of_rank (stratification : Stratification clauses) {bound : Nat}
    {first second : List Clause} {negated other : Facts} (isClause : first ⊆ clauses)
    (contained : ∀ clause ∈ first, stratification.rank clause.head.relation ≤ bound → clause ∈ second)
    (same : ∀ name, stratification.rank name < bound → negated name = other name) {name : Name}
    (ranked : stratification.rank name ≤ bound) :
    leastModel ordinal first given negated name ⊆ leastModel ordinal second given other name := by
  classical
  let model := leastModel ordinal second given other
  -- Above the rank, anything will do.
  let facts : Facts := fun name => if stratification.rank name ≤ bound then model name else Set.univ
  have inModel {name : Name} (low : stratification.rank name ≤ bound) : facts name = model name :=
    if_pos low
  have closed : Closed ordinal first given negated facts := by
    constructor
    · intro name row member
      by_cases low : stratification.rank name ≤ bound
      · rw [inModel low]
        exact leastModel_closed.given name member
      · simp [facts, low]
    · intro clause member valuation body
      by_cases low : stratification.rank clause.head.relation ≤ bound
      · rw [inModel low]
        refine leastModel_closed.clauses clause (contained clause member low) valuation ?_
        intro literal inBody
        have holds := body literal inBody
        cases literal with
        | positive relation args =>
            have below := stratification.positive clause (isClause member) relation args inBody
            simp only [Literal.Holds] at holds ⊢
            rwa [inModel (Nat.le_trans below low)] at holds
        | negative relation args =>
            have below := stratification.negated clause (isClause member) relation args inBody
            simp only [Literal.Holds] at holds ⊢
            rwa [same relation (Nat.lt_of_lt_of_le below low)] at holds
        | comparison op left right => exact holds
        | truth value => exact holds
      · simp [facts, low]
  have subset := leastModel_subset closed name
  rwa [inModel ranked] at subset

/-- Two ways to build the model up to a rank agree if they agree below it. -/
theorem leastModel_congr_rank (stratification : Stratification clauses) {bound : Nat}
    {first second : List Clause} {negated other : Facts} (isFirst : first ⊆ clauses)
    (isSecond : second ⊆ clauses)
    (agree : ∀ clause, stratification.rank clause.head.relation ≤ bound →
      (clause ∈ first ↔ clause ∈ second))
    (same : ∀ name, stratification.rank name < bound → negated name = other name) {name : Name}
    (ranked : stratification.rank name ≤ bound) :
    leastModel ordinal first given negated name = leastModel ordinal second given other name := by
  apply Set.Subset.antisymm
  · exact leastModel_subset_of_rank stratification isFirst (fun clause member low => (agree clause low).1 member)
      same ranked
  · exact leastModel_subset_of_rank stratification isSecond
      (fun clause member low => (agree clause low).2 member) (fun name low => (same name low).symm) ranked

/-- A model of the clauses with itself for the negated atoms is built rank by rank. -/
theorem modelBelow_eq (stratification : Stratification clauses) {facts : Facts}
    (stable : ∀ name, facts name = leastModel ordinal clauses given facts name) (bound : Nat) :
    ∀ name, stratification.rank name < bound →
      modelBelow ordinal clauses given stratification bound name = facts name := by
  induction bound with
  | zero => intro name low; omega
  | succ bound ih =>
      intro name low
      rw [stable name, modelBelow]
      exact leastModel_congr_rank stratification List.filter_sublist.subset (List.Subset.refl _)
        (fun clause low => by simp [low]) ih (by omega)

/-- The model below a rank does not change when higher ranks are added. -/
theorem modelBelow_succ (stratification : Stratification clauses) (bound : Nat) :
    ∀ name, stratification.rank name < bound →
      modelBelow ordinal clauses given stratification (bound + 1) name =
        modelBelow ordinal clauses given stratification bound name := by
  induction bound with
  | zero => intro name low; omega
  | succ bound ih =>
      intro name low
      rw [modelBelow, modelBelow]
      exact leastModel_congr_rank stratification List.filter_sublist.subset List.filter_sublist.subset
        (fun clause low => by simp [low, Nat.le_succ_of_le low]) ih (by omega)

theorem modelBelow_eq_stratifiedModel (stratification : Stratification clauses) {bound : Nat} {name : Name}
    (low : stratification.rank name < bound) :
    modelBelow ordinal clauses given stratification bound name =
      stratifiedModel ordinal clauses given stratification name := by
  induction bound, (low : stratification.rank name + 1 ≤ bound) using Nat.le_induction with
  | base => rfl
  | succ bound low ih => rw [modelBelow_succ stratification bound name low, ih]

/-- The stratified model is the model of the clauses with itself for the negated atoms. -/
theorem stratifiedModel_eq_leastModel (stratification : Stratification clauses) (name : Name) :
    stratifiedModel ordinal clauses given stratification name =
      leastModel ordinal clauses given (stratifiedModel ordinal clauses given stratification) name := by
  rw [stratifiedModel, modelBelow]
  exact leastModel_congr_rank stratification List.filter_sublist.subset (List.Subset.refl _)
    (fun clause low => by simp [low]) (fun _ low => modelBelow_eq_stratifiedModel stratification low)
    (Nat.le_refl _)

/-- There is no other model of the clauses with itself for the negated atoms. -/
theorem eq_stratifiedModel (stratification : Stratification clauses) {facts : Facts}
    (stable : ∀ name, facts name = leastModel ordinal clauses given facts name) (name : Name) :
    facts name = stratifiedModel ordinal clauses given stratification name :=
  (modelBelow_eq stratification stable _ name (Nat.lt_succ_self _)).symm

end

end DatalogRam
