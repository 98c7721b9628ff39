import DatalogRam.Letter

/-!
# Modes and items of a pattern

Modes say how the letters of a pattern are to be taken. Flags within the pattern switch a mode on or off.

An item is what one letter or one escape stands for. Patterns know neither the kinds nor the cases of the letters
of all scripts, so over characters they cannot ask for a kind of letter, for the border of a word, or for a
letter in either case. They are matched with text alone, so over bytes they cannot ask for a byte that is no
character, which every complement would contain.
-/

namespace DatalogRam.Pattern

structure Modes where
  /-- Upper and lower case are the same. -/
  ignoresCase : Bool := false
  /-- The pattern is over characters, and otherwise over bytes. -/
  unicode : Bool := true
  /-- Blanks in the pattern, and comments from a number sign to the end of the line, mean nothing. -/
  ignoresBlanks : Bool := false
  deriving DecidableEq, Repr

/-- A text from its first letter outside of blanks and comments on. It may begin `within` a comment. -/
def dropBlanks (within : Bool) : List Char → List Char
  | [] => []
  | letter :: rest =>
      if within then dropBlanks (letter != '\n') rest
      else if Letter.isBlank letter then dropBlanks false rest
      else if letter == '#' then dropBlanks true rest
      else letter :: rest

namespace Modes

/-- Leave out what means nothing. -/
def skip (modes : Modes) (letters : List Char) : List Char :=
  if modes.ignoresBlanks then dropBlanks false letters else letters

/-- The next letter that means something. A comment is not passed over to its end: what stands in it counts. -/
def peek? (modes : Modes) (letters : List Char) : Option Char :=
  if modes.ignoresBlanks then
    match letters.dropWhile Letter.isBlank with
    | '#' :: rest => (rest.dropWhile Letter.isBlank).head?
    | rest => rest.head?
  else letters.head?

/-- Switch one mode. The other flags make no difference to whether a pattern is well formed. -/
def switch (modes : Modes) (on : Bool) : Char → Modes
  | 'i' => { modes with ignoresCase := on }
  | 'u' => { modes with unicode := on }
  | 'x' => { modes with ignoresBlanks := on }
  | _ => modes

/-- Switch modes on, and behind a hyphen off. -/
def apply (modes : Modes) (on : Bool) : List Char → Modes
  | [] => modes
  | flag :: flags => if flag == '-' then modes.apply false flags else (modes.switch on flag).apply on flags

end Modes

inductive Item where
  /-- A letter; `coded` tells that it is written by two hexadecimal digits, which over bytes give a byte. -/
  | letter (value : Char) (coded : Bool)
  /-- Digits, blanks or the letters of words, or all but these. -/
  | kind (negated : Bool)
  /-- The beginning or the end of the text. -/
  | edge
  /-- A border of a word, or a place that is none. -/
  | wordEdge
  deriving DecidableEq, Repr

namespace Item

/-- Whether an item can stand outside of classes. -/
def fits (modes : Modes) : Item → Bool
  | .letter value coded =>
      if modes.unicode then !modes.ignoresCase else !coded || decide (value.toNat < 128)
  | .kind negated => !modes.unicode && !negated
  | .edge => true
  | .wordEdge => !modes.unicode

/-- Whether an item can stand in a class. -/
def fitsClass (modes : Modes) : Item → Bool
  | .letter value _ => if modes.unicode then !modes.ignoresCase else decide (value.toNat < 128)
  | .kind negated => !modes.unicode && !negated
  | .edge => false
  | .wordEdge => false

end Item

/-- The number that `count` hexadecimal digits write behind those of `value`. -/
def readCode (modes : Modes) : Nat → Nat → List Char → Option (Nat × List Char)
  | 0, value, letters => some (value, letters)
  | _ + 1, _, [] => none
  | count + 1, value, digit :: rest => do
      let digit ← Letter.hexValue? digit
      readCode modes count (value * 16 + digit) (modes.skip rest)

/-- A letter by its code point in so many hexadecimal digits. -/
def readCoded (modes : Modes) (digits : Nat) (letters : List Char) : Option (Item × List Char) := do
  let (value, rest) ← readCode modes digits 0 (modes.skip letters)
  if value < 0xD800 || (0xDFFF < value && value < 0x110000) then
    some (.letter (Char.ofNat value) (digits == 2), rest)
  else none

/-- The item behind a backslash. Punctuation stands for itself, most letters for nothing. -/
def readEscape (modes : Modes) : List Char → Option (Item × List Char)
  | [] => none
  | letter :: rest =>
      match letter with
      | 'x' => readCoded modes 2 rest
      | 'u' => readCoded modes 4 rest
      | 'U' => readCoded modes 8 rest
      | 'd' => some (.kind false, rest)
      | 's' => some (.kind false, rest)
      | 'w' => some (.kind false, rest)
      | 'D' => some (.kind true, rest)
      | 'S' => some (.kind true, rest)
      | 'W' => some (.kind true, rest)
      | 'a' => some (.letter '\x07' false, rest)
      | 'f' => some (.letter '\x0c' false, rest)
      | 'n' => some (.letter '\n' false, rest)
      | 'r' => some (.letter '\r' false, rest)
      | 't' => some (.letter '\t' false, rest)
      | 'v' => some (.letter '\x0b' false, rest)
      | 'A' => some (.edge, rest)
      | 'z' => some (.edge, rest)
      | 'b' => some (.wordEdge, rest)
      | 'B' => some (.wordEdge, rest)
      | '<' => some (.wordEdge, rest)
      | '>' => some (.wordEdge, rest)
      | _ => if letter.isAlphanum || decide (128 ≤ letter.toNat) then none else some (.letter letter false, rest)

/-- An item that is a letter or an escape. -/
def readItem (modes : Modes) : List Char → Option (Item × List Char)
  | [] => none
  | '\\' :: rest => readEscape modes rest
  | letter :: rest => some (.letter letter false, rest)

end DatalogRam.Pattern
