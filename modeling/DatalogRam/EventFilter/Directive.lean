import DatalogRam.Event
import DatalogRam.Pattern.Expression

/-!
# Directives

A directive is `target[span{field=value}]=level`, and each of its parts can be left out. It lets events through
up to a level. The value of a field is asked for by a number, a truth value or a regular expression.

`Directive.parse?` reads one letter after the other; what has been found out so far is a `Directive.Scan`.
-/

namespace DatalogRam

namespace EventFilter

/-- A number without its sign. -/
def unsigned : List Char → List Char
  | '-' :: digits | '+' :: digits => digits
  | digits => digits

/-- What stands behind the mark of an exponent and its sign, if the mark is there. -/
def exponent? : List Char → Option (List Char)
  | 'e' :: rest | 'E' :: rest => some (unsigned rest)
  | _ => none

/-- The digits behind a point, and what stands behind them. -/
def fraction : List Char → List Char × List Char
  | '.' :: rest => (rest.takeWhile Letter.isDecimalDigit, rest.dropWhile Letter.isDecimalDigit)
  | rest => ([], rest)

/-- Digits with at most one point among or beside them, and an exponent or none. -/
def isDecimal (letters : List Char) : Bool :=
  let whole := letters.takeWhile Letter.isDecimalDigit
  let (fraction, rest) := fraction (letters.dropWhile Letter.isDecimalDigit)
  (!whole.isEmpty || !fraction.isEmpty) &&
    match exponent? rest with
    | some digits => !digits.isEmpty && digits.all Letter.isDecimalDigit
    | none => rest.isEmpty

/-- Whether a text is a number with a plus sign. It is no regular expression, since nothing stands before the sign
that could be repeated. All other numbers and the truth values are expressions too. -/
def isSigned : List Char → Bool
  | '+' :: rest => isDecimal rest || ["inf", "infinity", "nan"].contains (String.ofList (rest.map Char.toLower))
  | _ => false

/-- Whether a text can be asked for as the value of a field. -/
def isValue (letters : List Char) : Bool :=
  isSigned letters || Pattern.wellFormed letters

end EventFilter

/-- A field that is asked for, with the value it has to have or with any. -/
structure FieldTest where
  name : String
  value : Option String
  deriving DecidableEq, Repr

structure Directive where
  /-- What the target of an event has to begin with. -/
  target : String := ""
  /-- The span that has to be open, if one has. -/
  span : Option String := none
  field : Option FieldTest := none
  /-- The least important level that is let through, if any is. -/
  threshold : Option Level := some .trace
  deriving DecidableEq, Repr

/-- Read a name and a value with an equals sign between them, or a name alone. A second equals sign ends the
value. -/
def FieldTest.parse? (letters : List Char) : Option FieldTest :=
  if letters.isEmpty then none
  else
    let name := String.ofList (letters.takeWhile (· != '='))
    match letters.dropWhile (· != '=') with
    | [] => some ⟨name, none⟩
    | _ :: rest =>
        let value := rest.takeWhile (· != '=')
        if EventFilter.isValue value then some ⟨name, some (String.ofList value)⟩ else none

namespace Directive

/-- Whether a directive decides about events outside of all spans, too. The name of a span and the value of a
field are known inside a span only. -/
def isUnscoped (directive : Directive) : Bool :=
  directive.span.isNone && !directive.field.any fun test => test.value.isSome

/-- A letter of a level's name in lower case. Only the letters of the English alphabet have two cases here. -/
def lowerCase (letter : Char) : Char :=
  if decide ('A' ≤ letter) && decide (letter ≤ 'Z') then Char.ofNat (letter.toNat + 32) else letter

/-- Levels are written by name in any case, or by number. -/
def threshold? (letters : List Char) : Option (Option Level) :=
  match Letter.natural? letters with
  | some 0 => some none
  | some 1 => some (some .error)
  | some 2 => some (some .warn)
  | some 3 => some (some .info)
  | some 4 => some (some .debug)
  | some 5 => some (some .trace)
  | _ =>
      match String.ofList (letters.map lowerCase) with
      | "off" => some none
      | "error" => some (some .error)
      | "warn" => some (some .warn)
      | "info" => some (some .info)
      | "debug" => some (some .debug)
      | "trace" => some (some .trace)
      | _ => none

/-- The text behind so many bytes, unless they end within a letter. -/
def dropBytes? : Nat → List Char → Option (List Char)
  | 0, letters => some letters
  | _ + 1, [] => none
  | count + 1, letter :: rest =>
      if letter.utf8Size ≤ count + 1 then dropBytes? (count + 1 - letter.utf8Size) rest else none

/-- So many bytes from the front of a text, unless they end within a letter. -/
def takeBytes? : Nat → List Char → Option (List Char)
  | 0, _ => some []
  | _ + 1, [] => none
  | count + 1, letter :: rest =>
      if letter.utf8Size ≤ count + 1 then (takeBytes? (count + 1 - letter.utf8Size) rest).map (letter :: ·) else none

/-- The bytes of a text from one offset to another. -/
def between? (start stop : Nat) (letters : List Char) : Option (List Char) := do
  takeBytes? (stop - start) (← dropBytes? start letters)

/-- Which part of a directive is being read, with the offset where it began. -/
inductive Stage where
  | start
  /-- A target, or a level that stands alone. -/
  | word (start : Nat)
  | span (start : Nat)
  | field (start : Nat)
  /-- Behind the closing brace of a field. -/
  | fieldEnd
  /-- Behind the closing bracket of a span. -/
  | spanEnd
  | level (start : Nat)
  deriving DecidableEq, Repr

structure Scan where
  /-- How many bytes have been read. -/
  offset : Nat := 0
  stage : Stage := .start
  /-- What has been read, with every part still missing left out. -/
  directive : Directive := {}
  deriving DecidableEq, Repr

/-- Whether a target can begin with a letter. -/
def beginsTarget (letter : Char) : Bool :=
  letter == '-' || letter == ':' || letter == '_' || Letter.isAlphanumeric letter

/-- The stage after a letter and the directive so far. The letter is at `offset`, and the parts are cut out of the
text `whole`. -/
def advance (whole : List Char) (offset : Nat) (directive : Directive) : Stage → Char → Option (Stage × Directive)
  | .start, '[' => some (.span (offset + 1), directive)
  | .start, letter => if beginsTarget letter then some (.word offset, directive) else none
  | .word start, '=' => do
      let target ← between? start offset whole
      return (.level (offset + 1), { directive with target := String.ofList target })
  | .word start, '[' => do
      let target ← between? start offset whole
      return (.span (offset + 1), { directive with target := String.ofList target })
  | .word start, _ => some (.word start, directive)
  | .span start, ']' => do
      let span ← between? start offset whole
      return (.spanEnd, { directive with span := some (String.ofList span) })
  | .span start, '\x7b' => do
      let span ← between? start offset whole
      return (.field (offset + 1),
        if span.isEmpty then directive else { directive with span := some (String.ofList span) })
  | .span start, _ => some (.span start, directive)
  | .field start, '\x7d' => do
      let test ← FieldTest.parse? (← between? start offset whole)
      return (.fieldEnd, { directive with field := some test })
  | .field start, _ => some (.field start, directive)
  | .fieldEnd, ']' => some (.spanEnd, directive)
  | .fieldEnd, _ => none
  | .spanEnd, '=' => some (.level (offset + 1), directive)
  | .spanEnd, _ => none
  | .level start, _ => some (.level start, directive)

def Scan.step (whole : List Char) (scan : Scan) (letter : Char) : Option Scan := do
  let (stage, directive) ← advance whole scan.offset scan.directive scan.stage letter
  return ⟨scan.offset + letter.utf8Size, stage, directive⟩

/-- The directive at the end of a text. A word alone is a level if it can be, and otherwise a target; without a
level all events are let through. -/
def Scan.finish (whole : List Char) (scan : Scan) : Option Directive :=
  match scan.stage with
  | .word start => do
      let word ← dropBytes? start whole
      return match threshold? word with
        | some threshold => { scan.directive with threshold }
        | none => { scan.directive with target := String.ofList word }
  | .level start => do
      let level ← dropBytes? start whole
      if level.isEmpty then return scan.directive
      let threshold ← threshold? level
      return { scan.directive with threshold }
  | .spanEnd => some scan.directive
  | _ => none

/-- Read a directive. Its marks are searched for without the blanks around it, and its parts are cut out of the
text with them, at the offsets of the marks. So blanks before it displace every part. -/
def parse? (letters : List Char) : Option Directive := do
  let scan ← (Letter.trim letters).foldlM (Scan.step letters) {}
  scan.finish letters

end Directive

end DatalogRam
