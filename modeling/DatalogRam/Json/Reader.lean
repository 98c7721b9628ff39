import DatalogRam.Json.Document
import DatalogRam.Letter

/-!
# Reading JSON

`Document.parse?` reads a text that is one document and nothing but blanks around it. The grammar is strict: no
comments, no commas behind the last item, no unpaired surrogates, no raw control characters in texts.
-/

namespace DatalogRam.Json

open Letter (isDecimalDigit readHex)

/-- Reading takes letters from the front of a text and leaves the rest. -/
abbrev Read (α : Type) := List Char → Option (α × List Char)

def isBlank (letter : Char) : Bool :=
  letter == ' ' || letter == '\n' || letter == '\r' || letter == '\t'

def skipBlanks (letters : List Char) : List Char :=
  letters.dropWhile isBlank

def isHighSurrogate (unit : Nat) : Bool :=
  decide (0xD800 ≤ unit) && decide (unit < 0xDC00)

def isLowSurrogate (unit : Nat) : Bool :=
  decide (0xDC00 ≤ unit) && decide (unit < 0xE000)

/-- The character behind `\u`: one unit, or a pair of surrogates. -/
def readUnicode (letters : List Char) : Option (Char × List Char) := do
  let (unit, rest) ← readHex 4 0 letters
  if isHighSurrogate unit then
    match rest with
    | '\\' :: 'u' :: rest =>
        let (low, rest) ← readHex 4 0 rest
        if isLowSurrogate low then
          some (Char.ofNat (0x10000 + (unit - 0xD800) * 0x400 + (low - 0xDC00)), rest)
        else none
    | _ => none
  else if isLowSurrogate unit then none
  else some (Char.ofNat unit, rest)

/-- The character behind a backslash. -/
def readEscape : Read Char
  | '"' :: rest => some ('"', rest)
  | '\\' :: rest => some ('\\', rest)
  | '/' :: rest => some ('/', rest)
  | 'b' :: rest => some ('\x08', rest)
  | 'f' :: rest => some ('\x0c', rest)
  | 'n' :: rest => some ('\n', rest)
  | 'r' :: rest => some ('\r', rest)
  | 't' :: rest => some ('\t', rest)
  | 'u' :: rest => readUnicode rest
  | _ => none

/-- The characters up to the closing quote. Every step takes at least one letter, so `fuel` suffices if it is
the length of the text. -/
def readCharacters : Nat → Read (List Char)
  | 0, _ => none
  | fuel + 1, letters =>
      match letters with
      | [] => none
      | '"' :: rest => some ([], rest)
      | '\\' :: rest => do
          let (letter, rest) ← readEscape rest
          let (others, rest) ← readCharacters fuel rest
          return (letter :: others, rest)
      | letter :: rest =>
          if letter.toNat < 32 then none
          else do
            let (others, rest) ← readCharacters fuel rest
            return (letter :: others, rest)

/-- A text, behind its opening quote. -/
def readText (letters : List Char) : Option (String × List Char) := do
  let (characters, rest) ← readCharacters (letters.length + 1) letters
  return (String.ofList characters, rest)

/-- One or more digits. -/
def readDigits (letters : List Char) : Option (List Char × List Char) :=
  match letters.takeWhile isDecimalDigit with
  | [] => none
  | digits => some (digits, letters.dropWhile isDecimalDigit)

/-- The digits before the point. A zero stands alone. -/
def readWhole : Read (List Char)
  | '0' :: rest => some (['0'], rest)
  | letters => readDigits letters

/-- A point and digits, or nothing. -/
def readFraction : Read (List Char)
  | '.' :: rest => do
      let (digits, rest) ← readDigits rest
      return ('.' :: digits, rest)
  | letters => some ([], letters)

/-- The sign of an exponent, or nothing. -/
def readSign : List Char → List Char × List Char
  | '+' :: rest => (['+'], rest)
  | '-' :: rest => (['-'], rest)
  | letters => ([], letters)

/-- An exponent, or nothing. -/
def readExponent : Read (List Char)
  | [] => some ([], [])
  | letter :: rest =>
      if letter == 'e' || letter == 'E' then do
        let (sign, rest) := readSign rest
        let (digits, rest) ← readDigits rest
        return (letter :: sign ++ digits, rest)
      else some ([], letter :: rest)

/-- A number, kept as it is written. -/
def readNumber (letters : List Char) : Option (String × List Char) := do
  let (minus, rest) := match letters with
    | '-' :: rest => (['-'], rest)
    | _ => ([], letters)
  let (whole, rest) ← readWhole rest
  let (fraction, rest) ← readFraction rest
  let (exponent, rest) ← readExponent rest
  return (String.ofList (minus ++ whole ++ fraction ++ exponent), rest)

mutual

/-- A document, after blanks. Documents within documents, and the items of one, each take fuel; the length of
the text is enough of it. -/
def readDocument : Nat → Read Document
  | 0, _ => none
  | fuel + 1, letters =>
      match skipBlanks letters with
      | 'n' :: 'u' :: 'l' :: 'l' :: rest => some (.null, rest)
      | 't' :: 'r' :: 'u' :: 'e' :: rest => some (.bool true, rest)
      | 'f' :: 'a' :: 'l' :: 's' :: 'e' :: rest => some (.bool false, rest)
      | '"' :: rest => do
          let (text, rest) ← readText rest
          return (.string text, rest)
      | '[' :: rest =>
          match skipBlanks rest with
          | ']' :: rest => some (.list [], rest)
          | rest => do
              let (items, rest) ← readItems fuel rest
              return (.list items, rest)
      | '\x7b' :: rest =>
          match skipBlanks rest with
          | '\x7d' :: rest => some (.object [], rest)
          | rest => do
              let (fields, rest) ← readFields fuel rest
              return (.object fields, rest)
      | rest => do
          let (number, rest) ← readNumber rest
          return (.number number, rest)

/-- The items of a list, up to its closing bracket. -/
def readItems : Nat → Read (List Document)
  | 0, _ => none
  | fuel + 1, letters => do
      let (item, rest) ← readDocument fuel letters
      match skipBlanks rest with
      | ']' :: rest => some ([item], rest)
      | ',' :: rest =>
          let (items, rest) ← readItems fuel rest
          some (item :: items, rest)
      | _ => none

/-- The fields of an object, up to its closing brace. -/
def readFields : Nat → Read (List (String × Document))
  | 0, _ => none
  | fuel + 1, letters =>
      match skipBlanks letters with
      | '"' :: rest => do
          let (name, rest) ← readText rest
          match skipBlanks rest with
          | ':' :: rest =>
              let (content, rest) ← readDocument fuel rest
              match skipBlanks rest with
              | '\x7d' :: rest => some ([(name, content)], rest)
              | ',' :: rest =>
                  let (fields, rest) ← readFields fuel rest
                  some ((name, content) :: fields, rest)
              | _ => none
          | _ => none
      | _ => none

end

/-- The document that a text consists of. -/
def Document.parse? (text : String) : Option Document :=
  match readDocument (text.length + 1) text.toList with
  | some (document, rest) => if (skipBlanks rest).isEmpty then some document else none
  | none => none

end DatalogRam.Json
