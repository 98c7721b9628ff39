import DatalogRam.Pattern.Item

/-!
# Classes of characters

A class stands in brackets. It holds items, ranges, classes with a name and further classes, and it is combined by
operators written as two equal marks. Reading a class gives how high its tree is: a leaf has no height, and
brackets, an operator and two or more parts side by side add one each.
-/

namespace DatalogRam.Pattern

/-- An item or a range of a class. The ends of a range are letters in their order. -/
def readClassPart (modes : Modes) (letters : List Char) : Option (List Char) := do
  let (low, rest) ← readItem modes letters
  let rest := modes.skip rest
  if !low.fitsClass modes then none
  else
    match rest with
    | '-' :: others =>
        if modes.peek? others == some ']' || modes.peek? others == some '-' then some rest
        else
          let (high, others) ← readItem modes (modes.skip others)
          if !high.fitsClass modes then none
          else
            match low, high with
            | .letter low _, .letter high _ => if low ≤ high then some others else none
            | _, _ => none
    | _ => some rest

/-- The classes that have a name. -/
def classNames : List String :=
  ["alnum", "alpha", "ascii", "blank", "cntrl", "digit", "graph", "lower", "print", "punct", "space", "upper",
   "word", "xdigit"]

/-- A class by its name, behind an opening bracket, and whether all but that class is meant. -/
def readNamedClass : List Char → Option (Bool × List Char)
  | ':' :: rest =>
      let (negated, rest) := match rest with
        | '^' :: others => (true, others)
        | _ => (false, rest)
      match rest.dropWhile (· != ':') with
      | ':' :: ']' :: others =>
          if classNames.contains (String.ofList (rest.takeWhile (· != ':'))) then some (negated, others) else none
      | _ => none
  | _ => none

/-- What has been read of a class: the parts of one operand, and the operands before it. -/
structure ClassLevel where
  parts : Nat := 0
  /-- The height of the highest part. -/
  height : Nat := 0
  /-- The height of the operands before the last operator. -/
  operand : Option Nat := none
  deriving DecidableEq, Repr

namespace ClassLevel

def add (level : ClassLevel) (height : Nat) : ClassLevel :=
  { level with parts := level.parts + 1, height := max level.height height }

/-- The height of all that has been read. -/
def total (level : ClassLevel) : Nat :=
  let last := if level.parts ≤ 1 then level.height else level.height + 1
  match level.operand with
  | none => last
  | some operand => max operand last + 1

/-- Begin another operand. -/
def operate (level : ClassLevel) : ClassLevel :=
  { operand := some level.total }

end ClassLevel

/-- The mark of negation behind an opening bracket, if it is there and can be. -/
def openClass (modes : Modes) (letters : List Char) : Option (List Char) :=
  match modes.skip letters with
  | '^' :: rest => if modes.unicode then some rest else none
  | letters => some letters

/-- The rest of a class within others, up to its closing bracket, with the height of the outermost one. While a
class is still `opening`, hyphens stand for themselves, and so does a closing bracket that is its first part.
Two steps take at least one letter, so `fuel` suffices if it is more than twice the length of the text. -/
def readClass (modes : Modes) : Nat → Bool → ClassLevel → List ClassLevel → List Char → Option (Nat × List Char)
  | 0, _, _, _, _ => none
  | fuel + 1, true, level, outer, letters =>
      match modes.skip letters with
      | '-' :: rest =>
          if (Item.letter '-' false).fitsClass modes then readClass modes fuel true (level.add 0) outer rest else none
      | ']' :: rest =>
          if level.parts ≠ 0 then readClass modes fuel false level outer (']' :: rest)
          else if (Item.letter ']' false).fitsClass modes then readClass modes fuel false (level.add 0) outer rest
          else none
      | letters => readClass modes fuel false level outer letters
  | fuel + 1, false, level, outer, letters =>
      match modes.skip letters with
      | '[' :: rest =>
          match readNamedClass rest with
          | some (negated, rest) =>
              if if modes.unicode then modes.ignoresCase else negated then none
              else readClass modes fuel false (level.add 0) outer rest
          | none => do readClass modes fuel true {} (level :: outer) (← openClass modes rest)
      | ']' :: rest =>
          match outer with
          | [] => some (level.total + 1, rest)
          | parent :: outer => readClass modes fuel false (parent.add (level.total + 1)) outer rest
      | '&' :: '&' :: rest => readClass modes fuel false level.operate outer rest
      | '-' :: '-' :: rest => readClass modes fuel false level.operate outer rest
      | '~' :: '~' :: rest => readClass modes fuel false level.operate outer rest
      | letters => do readClass modes fuel false (level.add 0) outer (← readClassPart modes letters)

end DatalogRam.Pattern
