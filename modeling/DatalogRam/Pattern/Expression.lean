import DatalogRam.Pattern.CharacterClass

/-!
# Regular expressions

`wellFormed` says which texts are regular expressions that a filter can be built from. Only texts without closing
braces are asked for, so that an opening brace begins a counted repetition that has no end.

The expression is read from the left with a stack of the groups that are open. Reading keeps the height of the
tree, in which a repetition, a group, two or more items in a sequence and two or more alternatives add one each.
-/

namespace DatalogRam.Pattern

/-- The letters of a group's name, behind the mark that opens it. -/
def readName (letters : List Char) : Option (List Char × List Char) :=
  let belongs (letter : Char) : Bool :=
    letter == '_' || letter == '.' || letter == '[' || letter == ']' || Letter.isAlphanumeric letter
  match letters.takeWhile belongs, letters.dropWhile belongs with
  | first :: others, '>' :: rest =>
      if first == '_' || Letter.isAlphabetic first then some (first :: others, rest) else none
  | _, _ => none

/-- The flags that there are, and the hyphen before those that are switched off. -/
def flagLetters : List Char :=
  ['i', 'm', 's', 'U', 'u', 'R', 'x', '-']

/-- What an opening parenthesis begins. -/
inductive Opening where
  | group
  | named (name : List Char)
  /-- A group with modes of its own. -/
  | moded (flags : List Char)
  /-- No group: modes from here to the end of the group around it. -/
  | switch (flags : List Char)
  deriving DecidableEq, Repr

/-- Flags behind those `seen` already, the last one first. Each stands once, and the hyphen is not the last. -/
def readFlags : List Char → List Char → Option (Opening × List Char)
  | _, [] => none
  | seen, letter :: rest =>
      if letter == ':' then if seen.head? == some '-' then none else some (.moded seen.reverse, rest)
      else if letter == ')' then
        if seen.isEmpty || seen.head? == some '-' then none else some (.switch seen.reverse, rest)
      else if flagLetters.contains letter && !seen.contains letter then readFlags (letter :: seen) rest
      else none

/-- What stands behind an opening parenthesis. There is no looking ahead or behind. -/
def readOpening : List Char → Option (Opening × List Char)
  | '?' :: 'P' :: '<' :: rest => (readName rest).map fun (name, rest) => (.named name, rest)
  | '?' :: '<' :: rest => (readName rest).map fun (name, rest) => (.named name, rest)
  | '?' :: rest => readFlags [] rest
  | letters => some (.group, letters)

/-- What has been read of a sequence. -/
structure Sequence where
  parts : Nat := 0
  /-- The height of the highest part. -/
  height : Nat := 0
  /-- The height of the last part, if it can be repeated. -/
  last : Option Nat := none
  deriving DecidableEq, Repr

namespace Sequence

def add (sequence : Sequence) (height : Nat) : Sequence :=
  ⟨sequence.parts + 1, max sequence.height height, some height⟩

/-- A part that cannot be repeated. -/
def addSwitch (sequence : Sequence) : Sequence :=
  ⟨sequence.parts + 1, sequence.height, none⟩

/-- Repeat the last part. -/
def repeat? (sequence : Sequence) : Option Sequence :=
  sequence.last.map fun height => ⟨sequence.parts, max sequence.height (height + 1), some (height + 1)⟩

def total (sequence : Sequence) : Nat :=
  if sequence.parts ≤ 1 then sequence.height else sequence.height + 1

end Sequence

/-- An open group, or the whole expression. -/
structure Group where
  /-- The modes around the group. -/
  around : Modes := {}
  /-- The height of the highest alternative that is complete, if one is. -/
  complete : Option Nat := none
  sequence : Sequence := {}
  deriving DecidableEq, Repr

namespace Group

def add (group : Group) (height : Nat) : Group :=
  { group with sequence := group.sequence.add height }

/-- Begin another alternative. -/
def alternate (group : Group) : Group :=
  { group with complete := some (max (group.complete.getD 0) group.sequence.total), sequence := {} }

/-- The height of what stands in the group. -/
def total (group : Group) : Nat :=
  match group.complete with
  | none => group.sequence.total
  | some height => max height group.sequence.total + 1

end Group

/-- What is known of an expression whose rest is still to be read. -/
structure Progress where
  modes : Modes := {}
  group : Group := {}
  /-- The groups around it, the innermost first. -/
  outer : List Group := []
  /-- The names of the groups so far. -/
  names : List (List Char) := []
  deriving DecidableEq, Repr

namespace Progress

def add (progress : Progress) (height : Nat) : Progress :=
  { progress with group := progress.group.add height }

/-- Go into a group. -/
def enter (progress : Progress) (modes : Modes) : Progress :=
  { progress with modes, group := { around := progress.modes }, outer := progress.group :: progress.outer }

/-- Go out of a group. The modes are again those around it. -/
def leave? (progress : Progress) : Option Progress :=
  match progress.outer with
  | [] => none
  | parent :: outer =>
      some { progress with
        modes := progress.group.around, group := parent.add (progress.group.total + 1), outer }

/-- Take what an opening parenthesis begins. No two groups have the same name. -/
def open? (progress : Progress) : Opening → Option Progress
  | .group => some (progress.enter progress.modes)
  | .named name =>
      if progress.names.contains name then none
      else some { progress.enter progress.modes with names := name :: progress.names }
  | .moded flags => some (progress.enter (progress.modes.apply true flags))
  | .switch flags =>
      some { progress with
        modes := progress.modes.apply true flags
        group := { progress.group with sequence := progress.group.sequence.addSwitch } }

/-- Repeat the last part of the sequence. -/
def repeat? (progress : Progress) : Option Progress :=
  progress.group.sequence.repeat?.map fun sequence => { progress with group := { progress.group with sequence } }

end Progress

/-- Behind a repetition a question mark says that it takes as little as it can. -/
def dropReluctant : List Char → List Char
  | '?' :: rest => rest
  | letters => letters

/-- The height of the expression, if its rest is well formed. Every step takes at least one letter, so `fuel`
suffices if it is more than the length of the text. -/
def heightFrom? : Nat → Progress → List Char → Option Nat
  | 0, _, _ => none
  | fuel + 1, progress, letters =>
      match progress.modes.skip letters with
      | [] => if progress.outer.isEmpty then some progress.group.total else none
      | '(' :: rest => do
          let (opening, rest) ← readOpening (progress.modes.skip rest)
          heightFrom? fuel (← progress.open? opening) rest
      | ')' :: rest => do heightFrom? fuel (← progress.leave?) rest
      | '|' :: rest => heightFrom? fuel { progress with group := progress.group.alternate } rest
      | '[' :: rest => do
          let rest ← openClass progress.modes rest
          let (height, rest) ← readClass progress.modes (2 * rest.length + 2) true {} [] rest
          heightFrom? fuel (progress.add height) rest
      | '*' :: rest => do heightFrom? fuel (← progress.repeat?) (dropReluctant rest)
      | '+' :: rest => do heightFrom? fuel (← progress.repeat?) (dropReluctant rest)
      | '?' :: rest => do heightFrom? fuel (← progress.repeat?) (dropReluctant rest)
      | '\x7b' :: _ => none
      | '^' :: rest => heightFrom? fuel (progress.add 0) rest
      | '$' :: rest => heightFrom? fuel (progress.add 0) rest
      | '.' :: rest => if progress.modes.unicode then heightFrom? fuel (progress.add 0) rest else none
      | letters => do
          let (item, rest) ← readItem progress.modes letters
          if item.fits progress.modes then heightFrom? fuel (progress.add 0) rest else none

/-- How high an expression may be. -/
def heightLimit : Nat := 250

def wellFormed (letters : List Char) : Bool :=
  (heightFrom? (letters.length + 1) {} letters).any (· ≤ heightLimit)

end DatalogRam.Pattern
