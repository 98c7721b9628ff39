/-!
# JSON documents

A document is a tree, and it is written either compactly or over several lines. Numbers are kept as the text
that stands for them, so the writer takes no decisions about them.
-/

namespace DatalogRam.Json

inductive Document where
  | null
  | bool (value : Bool)
  | number (text : String)
  | string (text : String)
  | list (items : List Document)
  | object (fields : List (String × Document))
  deriving Repr

instance : Inhabited Document := ⟨.null⟩

/-- A whole number. -/
def Document.ofInt (value : Int) : Document :=
  .number (toString value)

def Document.ofNat (value : Nat) : Document :=
  .number (toString value)

/-- A document with a single field. -/
def Document.tagged (tag : String) (content : Document) : Document :=
  .object [(tag, content)]

/-- The content of the first field with a name, if the document is an object that has one. -/
def Document.field? (document : Document) (name : String) : Option Document :=
  match document with
  | .object fields => fields.lookup name
  | _ => none

/-- The items, if the document is a list. -/
def Document.items? : Document → Option (List Document)
  | .list items => some items
  | _ => none

/-- The text, if the document is one. -/
def Document.text? : Document → Option String
  | .string text => some text
  | _ => none

/-- The truth value, if the document is one. -/
def Document.truth? : Document → Option Bool
  | .bool value => some value
  | _ => none

/-- The digit that stands for a number below sixteen. -/
def hexDigit (value : Nat) : Char :=
  if value < 10 then Char.ofNat (48 + value) else Char.ofNat (87 + value)

/-- Quotes, backslashes and control characters are escaped, all other characters stand as they are. -/
def escapedChar (letter : Char) : List Char :=
  match letter with
  | '"' => ['\\', '"']
  | '\\' => ['\\', '\\']
  | '\x08' => ['\\', 'b']
  | '\x0c' => ['\\', 'f']
  | '\n' => ['\\', 'n']
  | '\r' => ['\\', 'r']
  | '\t' => ['\\', 't']
  | other =>
      if other.toNat < 32 then
        ['\\', 'u', '0', '0', hexDigit (other.toNat / 16), hexDigit (other.toNat % 16)]
      else [other]

/-- A text between quotes. -/
def quoted (text : String) : String :=
  String.ofList ('"' :: text.toList.flatMap escapedChar ++ ['"'])

mutual

/-- The document without any blanks. -/
def Document.compact : Document → String
  | .null => "null"
  | .bool value => if value then "true" else "false"
  | .number text => text
  | .string text => quoted text
  | .list items => "[" ++ ",".intercalate (Document.compactItems items) ++ "]"
  | .object fields => "\x7b" ++ ",".intercalate (Document.compactFields fields) ++ "\x7d"

def Document.compactItems : List Document → List String
  | [] => []
  | item :: items => item.compact :: Document.compactItems items

def Document.compactFields : List (String × Document) → List String
  | [] => []
  | (name, content) :: fields => (quoted name ++ ":" ++ content.compact) :: Document.compactFields fields

end

/-- A line break and the indentation of a level. -/
def lineStart (level : Nat) : String :=
  String.ofList ('\n' :: List.replicate (2 * level) ' ')

/-- Items between brackets, each on a line of its own. -/
def bracketed (opening closing : String) (level : Nat) (items : List String) : String :=
  if items.isEmpty then opening ++ closing
  else
    opening ++ ",".intercalate (items.map (lineStart (level + 1) ++ ·)) ++ lineStart level ++ closing

mutual

/-- The document with every item of a list and every field of an object on a line of its own. -/
def Document.pretty (level : Nat) : Document → String
  | .null => "null"
  | .bool value => if value then "true" else "false"
  | .number text => text
  | .string text => quoted text
  | .list items => bracketed "[" "]" level (Document.prettyItems (level + 1) items)
  | .object fields => bracketed "\x7b" "\x7d" level (Document.prettyFields (level + 1) fields)

def Document.prettyItems (level : Nat) : List Document → List String
  | [] => []
  | item :: items => item.pretty level :: Document.prettyItems level items

def Document.prettyFields (level : Nat) : List (String × Document) → List String
  | [] => []
  | (name, content) :: fields =>
      (quoted name ++ ": " ++ content.pretty level) :: Document.prettyFields level fields

end

end DatalogRam.Json
