import DatalogRam.Proofs.Machine.Run
import Mathlib.Algebra.Order.BigOperators.Group.List
import Mathlib.Algebra.Order.Ring.Int

/-!
# Arithmetic of words

Words are summed with wrapping around, so a sum of words stands for the sum of their numbers only if that is the number
of a word. Then the mean is between the least and the greatest of the words, and it is the quotient of their sum and
their number, without its fraction. If the sum wraps around, the mean may be anywhere.

Division and remainder go toward zero. They fail where the divisor is zero, and where the least word is divided by
minus one. Otherwise multiplication and addition restore the dividend from the quotient and the remainder, as words and
as integers. The least word has a quotient and a remainder by minus one, too, though the operators refuse to give them:
the quotient wraps around to the least word and the remainder is zero.
-/

namespace DatalogRam

/-! ## Extremes -/

/-- Folding with a function that chooses one of two words gives the word that is to be chosen among all. -/
theorem foldl_chosen {choose : Int64 → Int64 → Int64} {before : Int64 → Int64 → Prop}
    (either : ∀ left right, choose left right = left ∨ choose left right = right)
    (beforeLeft : ∀ left right, before (choose left right) left)
    (beforeRight : ∀ left right, before (choose left right) right) (refl : ∀ word, before word word)
    (trans : ∀ {first second third}, before first second → before second third → before first third) (first : Int64)
    (rest : List Int64) :
    rest.foldl choose first ∈ first :: rest ∧ ∀ word ∈ first :: rest, before (rest.foldl choose first) word := by
  induction rest generalizing first with
  | nil => exact ⟨List.mem_cons_self, List.forall_mem_singleton.2 (refl first)⟩
  | cons second rest ih =>
      obtain ⟨member, isBefore⟩ := ih (choose first second)
      rw [List.forall_mem_cons] at isBefore
      rw [List.foldl_cons]
      constructor
      · rcases List.mem_cons.1 member with same | inRest
        · rw [same]
          rcases either first second with chosen | chosen <;> simp [chosen]
        · exact List.mem_cons_of_mem _ (List.mem_cons_of_mem _ inRest)
      · rw [List.forall_mem_cons, List.forall_mem_cons]
        exact ⟨trans isBefore.1 (beforeLeft first second), trans isBefore.1 (beforeRight first second), isBefore.2⟩

theorem lesser_le_left (left right : Int64) : lesser left right ≤ left := by
  rw [lesser]
  split
  · next less => exact Int64.le_of_lt less
  · exact Int64.le_refl left

theorem lesser_le_right (left right : Int64) : lesser left right ≤ right := by
  rw [lesser]
  split
  · exact Int64.le_refl right
  · next notLess => exact Int64.not_lt.1 notLess

/-- Folding with `lesser` gives the lowest of the words. -/
theorem foldl_lesser (first : Int64) (rest : List Int64) :
    rest.foldl lesser first ∈ first :: rest ∧ ∀ word ∈ first :: rest, rest.foldl lesser first ≤ word :=
  foldl_chosen (fun left right => by rw [lesser]; split <;> simp) lesser_le_left lesser_le_right Int64.le_refl
    Int64.le_trans first rest

theorem le_greater_left (left right : Int64) : left ≤ greater left right := by
  rw [greater]
  split
  · next less => exact Int64.le_of_lt less
  · exact Int64.le_refl left

theorem le_greater_right (left right : Int64) : right ≤ greater left right := by
  rw [greater]
  split
  · exact Int64.le_refl right
  · next notLess => exact Int64.not_lt.1 notLess

/-- Folding with `greater` gives the highest of the words. -/
theorem foldl_greater (first : Int64) (rest : List Int64) :
    rest.foldl greater first ∈ first :: rest ∧ ∀ word ∈ first :: rest, word ≤ rest.foldl greater first :=
  @foldl_chosen greater (fun higher lower => lower ≤ higher)
    (fun left right => by rw [greater]; split <;> simp) le_greater_left le_greater_right Int64.le_refl
    (fun first second => Int64.le_trans second first) first rest

/-! ## Sums -/

/-- The sum of the numbers that words stand for. -/
def exactSum (values : List Int64) : Int :=
  (values.map Int64.toInt).sum

/-- Summing words is summing their numbers and wrapping around once. -/
theorem wordSum_eq (values : List Int64) : wordSum values = Int64.ofInt (exactSum values) := by
  have onward (start : Int) :
      values.foldl (· + ·) (Int64.ofInt start) = Int64.ofInt (start + exactSum values) := by
    induction values generalizing start with
    | nil => rw [exactSum, List.map_nil, List.sum_nil, Int.add_zero, List.foldl_nil]
    | cons value rest ih =>
        rw [List.foldl_cons]
        conv_lhs => rw [← Int64.ofInt_toInt value, ← Int64.ofInt_add]
        rw [ih, exactSum, exactSum, List.map_cons, List.sum_cons, Int.add_assoc]
  rw [wordSum, ← Int.zero_add (exactSum values)]
  exact onward 0

/-- Words whose sum is itself a word. -/
def SumFits (values : List Int64) : Prop :=
  Int64.minValue.toInt ≤ exactSum values ∧ exactSum values ≤ Int64.maxValue.toInt

instance (values : List Int64) : Decidable (SumFits values) :=
  inferInstanceAs (Decidable (_ ∧ _))

theorem SumFits.toInt_wordSum {values : List Int64} (fits : SumFits values) :
    (wordSum values).toInt = exactSum values := by
  rw [wordSum_eq]
  exact Int64.toInt_ofInt_of_le fits.1 (Int.lt_of_le_of_lt fits.2 (by decide))

/-- The quotient of a sum and the number of its summands is between bounds of the summands. -/
theorem tdiv_exactSum_mem {values : List Int64} (nonempty : values ≠ []) {least greatest : Int64}
    (low : ∀ value ∈ values, least ≤ value) (high : ∀ value ∈ values, value ≤ greatest) :
    least.toInt ≤ (exactSum values).tdiv values.length ∧ (exactSum values).tdiv values.length ≤ greatest.toInt := by
  have positive : (0 : Int) < values.length := by
    have := List.length_pos_iff.2 nonempty
    omega
  have atLeast := List.card_nsmul_le_sum (values.map Int64.toInt) least.toInt
    (List.forall_mem_map.2 fun value member => Int64.le_iff_toInt_le.1 (low value member))
  have atMost := List.sum_le_card_nsmul (values.map Int64.toInt) greatest.toInt
    (List.forall_mem_map.2 fun value member => Int64.le_iff_toInt_le.1 (high value member))
  rw [List.length_map, nsmul_eq_mul] at atLeast atMost
  constructor
  · rw [← Int.mul_tdiv_cancel_left least.toInt (Int.ne_of_gt positive)]
    exact Int.tdiv_le_tdiv positive atLeast
  · rw [← Int.mul_tdiv_cancel_left greatest.toInt (Int.ne_of_gt positive)]
    exact Int.tdiv_le_tdiv positive atMost

/-! ## Means -/

/-- The mean is the quotient of the wrapped sum and the number of words, if that number is one of a word. -/
theorem toInt_mean {values : List Int64} {mean : Int64} (few : values.length < 2 ^ 63)
    (isMean : Aggregation.mean.fold values = some mean) :
    mean.toInt = (wordSum values).toInt.tdiv values.length := by
  rw [Aggregation.fold] at isMean
  split at isMean
  · cases isMean
  · cases isMean
    have isLength : (Int64.ofNat values.length).toInt = values.length := Int64.toInt_ofNat_of_lt few
    rw [Int64.toInt_div_of_ne_right, isLength]
    intro negative
    rw [negative] at isLength
    have : (-1 : Int64).toInt = -1 := rfl
    omega

/-- Of some words there always are a minimum, a mean and a maximum. The mean is the wrapped sum divided by the number of
words, toward zero. If the sum of the words is itself a word, it does not wrap around, and the mean is between the
minimum and the maximum. -/
theorem mean_between_extremes {values : List Int64} (nonempty : values ≠ []) (few : values.length < 2 ^ 63) :
    ∃ least mean greatest,
      Aggregation.min.fold values = some least ∧ Aggregation.mean.fold values = some mean ∧
      Aggregation.max.fold values = some greatest ∧
      mean.toInt = (Int64.ofInt (exactSum values)).toInt.tdiv values.length ∧
      (SumFits values →
        mean.toInt = (exactSum values).tdiv values.length ∧ least ≤ mean ∧ mean ≤ greatest) := by
  obtain ⟨first, rest, rfl⟩ := List.exists_cons_of_ne_nil nonempty
  obtain ⟨_, low⟩ := foldl_lesser first rest
  obtain ⟨_, high⟩ := foldl_greater first rest
  have isMean : Aggregation.mean.fold (first :: rest) =
      some (wordSum (first :: rest) / Int64.ofNat (first :: rest).length) := rfl
  refine ⟨_, _, _, rfl, isMean, rfl, ?_, fun fits => ?_⟩
  · rw [toInt_mean few isMean, wordSum_eq]
  · have exact := toInt_mean few isMean
    rw [fits.toInt_wordSum] at exact
    obtain ⟨notBelow, notAbove⟩ := tdiv_exactSum_mem nonempty low high
    rw [Int64.le_iff_toInt_le, Int64.le_iff_toInt_le, exact]
    exact ⟨rfl, notBelow, notAbove⟩

/-- These words add up to -6, and a quarter of that is taken toward zero. -/
theorem mean_between_extremes_mixed :
    [-7, 2, Int64.maxValue, Int64.minValue] ≠ [] ∧ [-7, 2, Int64.maxValue, Int64.minValue].length < 2 ^ 63 ∧
      SumFits [-7, 2, Int64.maxValue, Int64.minValue] ∧
      ∃ mean, Aggregation.mean.fold [-7, 2, Int64.maxValue, Int64.minValue] = some mean ∧ mean.toInt = -1 ∧
        Int64.minValue ≤ mean ∧ mean ≤ Int64.maxValue := by
  have fits : SumFits [-7, 2, Int64.maxValue, Int64.minValue] := by decide
  obtain ⟨least, mean, greatest, isLeast, isMean, isGreatest, _, between⟩ :=
    @mean_between_extremes [-7, 2, Int64.maxValue, Int64.minValue] (by decide) (by decide)
  obtain ⟨exact, notBelow, notAbove⟩ := between fits
  cases isLeast
  cases isGreatest
  exact ⟨by decide, by decide, fits, mean, isMean, exact, notBelow, notAbove⟩

/-- The sum of the greatest word and itself wraps around, and its half is below both. -/
theorem mean_of_greatest_below :
    Aggregation.min.fold [Int64.maxValue, Int64.maxValue] = some Int64.maxValue ∧
      Aggregation.mean.fold [Int64.maxValue, Int64.maxValue] = some (-1) ∧ ¬ Int64.maxValue ≤ -1 ∧
      (exactSum [Int64.maxValue, Int64.maxValue]).tdiv 2 = Int64.maxValue.toInt := by
  decide

/-! ## Quotients and remainders -/

section Words

variable (dividend divisor : Int64)

theorem quotient_eq_ofInt : dividend / divisor = Int64.ofInt (dividend.toInt.tdiv divisor.toInt) := by
  rw [Int64.ofInt_tdiv (Int64.minValue_le_toInt _) (Int64.toInt_le _) (Int64.minValue_le_toInt _) (Int64.toInt_le _),
    Int64.ofInt_toInt, Int64.ofInt_toInt]

theorem remainder_eq_ofInt : dividend % divisor = Int64.ofInt (dividend.toInt.tmod divisor.toInt) := by
  rw [← Int64.toInt_mod, Int64.ofInt_toInt]

/-- The dividend is restored also where the quotient wraps around, because the product then does so as well. -/
theorem quotient_mul_add_remainder : dividend / divisor * divisor + dividend % divisor = dividend :=
  calc dividend / divisor * divisor + dividend % divisor
    _ = Int64.ofInt (dividend.toInt.tdiv divisor.toInt) * Int64.ofInt divisor.toInt +
          Int64.ofInt (dividend.toInt.tmod divisor.toInt) := by
      rw [quotient_eq_ofInt, remainder_eq_ofInt, Int64.ofInt_toInt]
    _ = Int64.ofInt (dividend.toInt.tdiv divisor.toInt * divisor.toInt + dividend.toInt.tmod divisor.toInt) := by
      rw [Int64.ofInt_add, Int64.ofInt_mul]
    _ = dividend := by rw [Int.tdiv_mul_add_tmod, Int64.ofInt_toInt]

theorem remainder_eq_zero_or_sign_eq :
    dividend % divisor = 0 ∨ (dividend % divisor).toInt.sign = dividend.toInt.sign := by
  rw [← Int64.toInt_inj, Int64.toInt_mod]
  by_cases isMultiple : divisor.toInt ∣ dividend.toInt
  · exact .inl (Int.tmod_eq_zero_of_dvd isMultiple)
  · exact .inr (by rw [Int.sign_tmod, if_neg isMultiple])

theorem natAbs_remainder_lt {divisor : Int64} (nonzero : divisor ≠ 0) :
    (dividend % divisor).toInt.natAbs < divisor.toInt.natAbs := by
  have positive : 0 < divisor.toInt.natAbs := Int.natAbs_pos.2 fun isZero => nonzero (Int64.toInt_inj.1 isZero)
  rw [Int64.toInt_mod, Int.natAbs_tmod]
  exact Nat.mod_lt _ positive

end Words

namespace Machine

variable {dividend divisor : Int64}

/-! ## Where division fails -/

/-- The divisor is zero, or the least word is divided by minus one. -/
def Indivisible (dividend divisor : Int64) : Prop :=
  divisor = 0 ∨ dividend = Int64.minValue ∧ divisor = -1

instance (dividend divisor : Int64) : Decidable (Indivisible dividend divisor) :=
  inferInstanceAs (Decidable (_ ∨ _))

theorem divides_eq : divides dividend divisor = !decide (Indivisible dividend divisor) := by
  grind [divides, Indivisible]

/-- A quotient does not wrap around where division does not fail. -/
theorem toInt_quotient (divisible : ¬Indivisible dividend divisor) :
    (dividend / divisor).toInt = dividend.toInt.tdiv divisor.toInt := by
  by_cases isMinusOne : divisor = -1
  · exact Int64.toInt_div_of_ne_left _ _ fun isLeast => divisible (.inr ⟨isLeast, isMinusOne⟩)
  · exact Int64.toInt_div_of_ne_right _ _ isMinusOne

/-- The code ends with a fault. -/
def Faults {α : Type} (code : Exec α) (state : State) (fault : Fault) (final : State) : Prop :=
  code.run.run state = (.error (.fault fault), final)

theorem Faults.not_returns {α : Type} {code : Exec α} {state final last : State} {fault : Fault} {a : α}
    (faults : Faults code state fault final) : ¬Returns code state a last := by
  intro returns
  cases faults.symm.trans returns

/-- An operator on two words fails where they are indivisible. -/
def Guards (op : Operator) (divide : Int64 → Int64 → Int64) : Prop :=
  ∀ symbols dividend divisor, applyOperator symbols op [dividend, divisor] =
    if Indivisible dividend divisor then .error .divisionByZero else .ok (divide dividend divisor, symbols)

theorem guards_of_divides {op : Operator} {divide : Int64 → Int64 → Int64}
    (same : ∀ symbols dividend divisor, applyOperator symbols op [dividend, divisor] =
      Except.map (fun value => (value, symbols))
        (if divides dividend divisor then .ok (divide dividend divisor) else .error .divisionByZero)) :
    Guards op divide := by
  intro symbols dividend divisor
  rw [same, divides_eq]
  by_cases indivisible : Indivisible dividend divisor <;> simp [indivisible, Except.map]

theorem guards_div : Guards .div (· / ·) :=
  guards_of_divides fun _ _ _ => rfl

theorem guards_mod : Guards .mod (· % ·) :=
  guards_of_divides fun _ _ _ => rfl

namespace Guards

variable {op : Operator} {divide : Int64 → Int64 → Int64}

theorem returns (guards : Guards op divide) (state : State) (divisible : ¬Indivisible dividend divisor) :
    Returns (runOperator op [dividend, divisor]) state (divide dividend divisor) state := by
  apply Returns.runOperator
  rw [guards, if_neg divisible]

theorem faults_iff (guards : Guards op divide) (state : State) (dividend divisor : Int64) :
    Faults (runOperator op [dividend, divisor]) state .divisionByZero state ↔ Indivisible dividend divisor := by
  by_cases indivisible : Indivisible dividend divisor
  · refine iff_of_true ?_ indivisible
    rw [Faults, Returns.run_runOperator, guards, if_pos indivisible]
    rfl
  · exact iff_of_false (fun faults => faults.not_returns (guards.returns state indivisible)) indivisible

end Guards

/-! ## What division gives -/

/-- A quotient and a remainder of two words, in the arithmetic of the operators. -/
structure Splits (dividend divisor quotient remainder : Int64) : Prop where
  restores : ∀ state, Returns
    (do
      let product ← runOperator .mul [quotient, divisor]
      runOperator .add [product, remainder])
    state dividend state
  smaller : remainder.toInt.natAbs < divisor.toInt.natAbs
  sign : remainder = 0 ∨ remainder.toInt.sign = dividend.toInt.sign

/-- For every divisor but zero there are a quotient and a remainder. -/
theorem splits (dividend : Int64) {divisor : Int64} (nonzero : divisor ≠ 0) :
    Splits dividend divisor (dividend / divisor) (dividend % divisor) where
  restores state := by
    have isProduct : Returns (runOperator .mul [dividend / divisor, divisor]) state (dividend / divisor * divisor)
        state := Returns.runOperator rfl
    have isSum : Returns (runOperator .add [dividend / divisor * divisor, dividend % divisor]) state
        (dividend / divisor * divisor + dividend % divisor) state := Returns.runOperator rfl
    rw [quotient_mul_add_remainder] at isSum
    exact isProduct.bind isSum
  smaller := natAbs_remainder_lt dividend nonzero
  sign := remainder_eq_zero_or_sign_eq dividend divisor

/-- Division and remainder fail with the fault of a zero divisor exactly where the divisor is zero or the least word is
divided by minus one. Otherwise they give a quotient and a remainder, which restore the dividend as integers, too. -/
theorem division_fails_or_splits (state : State) (dividend divisor : Int64) :
    (Faults (runOperator .div [dividend, divisor]) state .divisionByZero state ↔ Indivisible dividend divisor) ∧
      (Faults (runOperator .mod [dividend, divisor]) state .divisionByZero state ↔ Indivisible dividend divisor) ∧
      (¬Indivisible dividend divisor → ∃ quotient remainder,
        Returns (runOperator .div [dividend, divisor]) state quotient state ∧
        Returns (runOperator .mod [dividend, divisor]) state remainder state ∧
        Splits dividend divisor quotient remainder ∧
        quotient.toInt * divisor.toInt + remainder.toInt = dividend.toInt) := by
  refine ⟨guards_div.faults_iff state _ _, guards_mod.faults_iff state _ _, fun divisible => ?_⟩
  refine ⟨_, _, guards_div.returns state divisible, guards_mod.returns state divisible, ?_, ?_⟩
  · exact splits dividend fun isZero => divisible (.inl isZero)
  · rw [toInt_quotient divisible, Int64.toInt_mod, Int.tdiv_mul_add_tmod]

/-- Nothing is stored, known or bound. -/
def State.blank : State :=
  ⟨.empty, .empty, 0, []⟩

/-- The quotient and the remainder of the least word by ten are those nearer to zero. -/
theorem division_fails_or_splits_least :
    ¬Indivisible Int64.minValue 10 ∧
      Returns (runOperator .div [Int64.minValue, 10]) .blank (-922337203685477580) .blank ∧
      Returns (runOperator .mod [Int64.minValue, 10]) .blank (-8) .blank ∧
      Splits Int64.minValue 10 (-922337203685477580) (-8) ∧
      (-922337203685477580) * 10 + (-8) = Int64.minValue.toInt := by
  have divisible : ¬Indivisible Int64.minValue 10 := by decide
  obtain ⟨quotient, remainder, isQuotient, isRemainder, splits, exact⟩ :=
    (division_fails_or_splits .blank Int64.minValue 10).2.2 divisible
  have divided : Returns (runOperator .div [Int64.minValue, 10]) .blank (-922337203685477580) .blank := rfl
  have rest : Returns (runOperator .mod [Int64.minValue, 10]) .blank (-8) .blank := rfl
  obtain ⟨rfl, _⟩ := isQuotient.unique divided
  obtain ⟨rfl, _⟩ := isRemainder.unique rest
  exact ⟨divisible, isQuotient, isRemainder, splits, exact⟩

/-- The least word is not divided by minus one, although the divisor is not zero and there are a quotient and a
remainder. -/
theorem least_by_minus_one_faults :
    (-1 : Int64) ≠ 0 ∧ Splits Int64.minValue (-1) Int64.minValue 0 ∧
      Faults (runOperator .div [Int64.minValue, -1]) .blank .divisionByZero .blank ∧
      Faults (runOperator .mod [Int64.minValue, -1]) .blank .divisionByZero .blank := by
  have nonzero : (-1 : Int64) ≠ 0 := by decide
  have isQuotient : Int64.minValue / -1 = Int64.minValue := Int64.minValue_div_neg_one
  have isRemainder : Int64.minValue % -1 = 0 := by decide
  have split := splits Int64.minValue nonzero
  rw [isQuotient, isRemainder] at split
  exact ⟨nonzero, split, rfl, rfl⟩

end Machine

end DatalogRam
