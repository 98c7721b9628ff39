import DatalogRam.Decimal.Binary64

/-!
# Shortest decimals

`Neighbourhood.shortest` finds, among the decimals that round to a given binary fraction, one with the fewest
digits, and among those the nearest. All comparisons are between natural numbers, so nothing is rounded on
the way.
-/

namespace DatalogRam.Decimal

/-- A positive decimal number `coefficient * 10 ^ exponent`. -/
structure Digits where
  coefficient : Nat
  exponent : Int
  deriving DecidableEq, Repr

/-- Which of two equally near decimals is taken. -/
inductive TieRule where
  | up
  | toEven
  deriving DecidableEq, Repr

/-- A binary fraction with the ends of the interval of reals that round to it. The three numbers count
multiples of `2 ^ unit`; the ends belong to the interval when `closed` holds. -/
structure Neighbourhood where
  low : Nat
  middle : Nat
  high : Nat
  unit : Int
  closed : Bool
  deriving Repr

namespace Neighbourhood

/-- The neighbourhood of `significand * 2 ^ exponent`, in quarters of its last binary place. Halves round to
the even significand, so only an even one owns the ends. -/
def of (significand : Nat) (exponent : Int) (narrowBelow : Bool) : Neighbourhood where
  low := 4 * significand - (if narrowBelow then 1 else 2)
  middle := 4 * significand
  high := 4 * significand + 2
  unit := exponent - 2
  closed := significand % 2 == 0

/-- The factor that turns multiples of `2 ^ unit` into the scale on which they compare with multiples of
`10 ^ place`. -/
def binaryScale (region : Neighbourhood) (place : Int) : Nat :=
  Nat.pow 2 region.unit.toNat * Nat.pow 10 (-place).toNat

/-- The factor that turns multiples of `10 ^ place` into the same scale. -/
def decimalScale (region : Neighbourhood) (place : Int) : Nat :=
  Nat.pow 10 place.toNat * Nat.pow 2 (-region.unit).toNat

/-- Whether `coefficient * 10 ^ place` rounds to the binary fraction. -/
def contains (region : Neighbourhood) (coefficient : Nat) (place : Int) : Bool :=
  let candidate := coefficient * region.decimalScale place
  let low := region.low * region.binaryScale place
  let high := region.high * region.binaryScale place
  if region.closed then decide (low ≤ candidate) && decide (candidate ≤ high)
  else decide (low < candidate) && decide (candidate < high)

/-- The nearer of the fraction's two neighbours on the grid of multiples of `10 ^ place`, among those that
round to the fraction. -/
def onGrid (tie : TieRule) (region : Neighbourhood) (place : Int) : Option Nat :=
  let value := region.middle * region.binaryScale place
  let step := region.decimalScale place
  let below := value / step
  let rest := value % step
  let nearer :=
    if 2 * rest < step then below
    else if step < 2 * rest then below + 1
    else match tie with
      | .up => below + 1
      | .toEven => if below % 2 == 0 then below else below + 1
  match region.contains below place, region.contains (below + 1) place with
  | true, true => some nearer
  | true, false => some below
  | false, true => some (below + 1)
  | false, false => none

/-- Whether the fraction is less than `10 ^ place`. -/
def isBelow (region : Neighbourhood) (place : Int) : Bool :=
  decide (region.middle * region.binaryScale place < region.decimalScale place)

/-- The first place from `start` on, within `steps` steps, that lies above the fraction. -/
def firstPlaceAbove (region : Neighbourhood) : Nat → Int → Int
  | 0, start => start
  | steps + 1, start => if region.isBelow start then start else firstPlaceAbove region steps (start + 1)

/-- The place just above the leading digit. The binary logarithm gives it up to a few places, and the search
starts below that. -/
def leadingPlace (region : Neighbourhood) : Int :=
  let logarithm : Int := Int.ofNat region.middle.log2 + region.unit
  region.firstPlaceAbove 8 (Int.fdiv (logarithm * 30103) 100000 - 2)

/-- Try grids of `count`, `count + 1`, ... digits, `tries` of them. Seventeen digits tell all doubles apart,
so the last grid always answers. -/
def searchGrids (tie : TieRule) (region : Neighbourhood) (leading : Int) : Nat → Nat → Digits
  | 0, count =>
      let place := leading - Int.ofNat count
      ⟨region.middle * region.binaryScale place / region.decimalScale place, place⟩
  | tries + 1, count =>
      let place := leading - Int.ofNat count
      match region.onGrid tie place with
      | some coefficient => ⟨coefficient, place⟩
      | none => searchGrids tie region leading tries (count + 1)

/-- The shortest decimal that rounds to the fraction, and the nearest of that length. -/
def shortest (tie : TieRule) (region : Neighbourhood) : Digits :=
  region.searchGrids tie region.leadingPlace 17 1

end Neighbourhood

end DatalogRam.Decimal
