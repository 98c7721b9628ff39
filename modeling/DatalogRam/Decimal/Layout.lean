import DatalogRam.Decimal.Shortest

/-!
# Laying out decimal numbers

A `Layout` holds the decisions of one text format for doubles: where positional notation ends, whether whole
numbers keep a fractional digit, how an exponent is signed, and which way ties go. `Layout.render` writes a
double by those decisions.
-/

namespace DatalogRam.Decimal

/-- The decisions of a text format for doubles. -/
structure Layout where
  /-- The least and the greatest exponent of a leading digit that is written positionally; all are if there
  is no range. -/
  positional : Option (Int × Int)
  /-- Whether a whole number in positional notation ends in `.0`. -/
  wholeFraction : Bool
  /-- Whether a positive exponent is signed. -/
  exponentPlus : Bool
  tie : TieRule

namespace Layout

/-- Whether a number with the given exponent of its leading digit is written positionally. -/
def writesPositionally (layout : Layout) (leading : Int) : Bool :=
  match layout.positional with
  | none => true
  | some (least, greatest) => decide (least ≤ leading) && decide (leading ≤ greatest)

def zeros (count : Nat) : List Char :=
  List.replicate count '0'

/-- Digits with the point behind, within or before them. -/
def positionalText (layout : Layout) (digits : List Char) (leading : Int) : List Char :=
  if leading < 0 then
    '0' :: '.' :: zeros (-leading - 1).toNat ++ digits
  else
    let whole := leading.toNat + 1
    if digits.length ≤ whole then
      digits ++ zeros (whole - digits.length) ++ (if layout.wholeFraction then ['.', '0'] else [])
    else
      digits.take whole ++ '.' :: digits.drop whole

/-- One digit, the other digits behind a point if there are any, and the exponent. -/
def exponentText (layout : Layout) (digits : List Char) (leading : Int) : List Char :=
  let mantissa := digits.take 1 ++ (if digits.length ≤ 1 then [] else '.' :: digits.drop 1)
  let sign := if leading < 0 then ['-'] else if layout.exponentPlus then ['+'] else []
  mantissa ++ 'e' :: sign ++ Nat.toDigits 10 leading.natAbs

/-- The digits of a coefficient without the zeros at its end. -/
def significantDigits (coefficient : Nat) : List Char :=
  ((Nat.toDigits 10 coefficient).reverse.dropWhile (· == '0')).reverse

/-- The text of a positive decimal number. -/
def digitsText (layout : Layout) (number : Digits) : List Char :=
  let leading := Int.ofNat (Nat.toDigits 10 number.coefficient).length - 1 + number.exponent
  let digits := significantDigits number.coefficient
  if layout.writesPositionally leading then layout.positionalText digits leading
  else layout.exponentText digits leading

/-- The text of a finite magnitude. -/
def magnitudeText (layout : Layout) (significand : Nat) (exponent : Int) (narrowBelow : Bool) : List Char :=
  if significand = 0 then layout.positionalText ['0'] 0
  else layout.digitsText ((Neighbourhood.of significand exponent narrowBelow).shortest layout.tie)

/-- The text of a double. A NaN has no sign. -/
def render (layout : Layout) (number : Binary64) : String :=
  match number.decode with
  | .notANumber => "NaN"
  | .infinite negative => if negative then "-inf" else "inf"
  | .finite negative significand exponent =>
      String.ofList
        ((if negative then ['-'] else []) ++ layout.magnitudeText significand exponent number.narrowBelow)

end Layout

end DatalogRam.Decimal
