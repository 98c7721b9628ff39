import DatalogRam.Text

/-!
# Dotted names

Relations and types have names of one or more segments. Written with dots between the segments, two different
names may have the same text: a segment may itself hold a dot. Names are equal when their segments are.

`Name.parse` reads a text and never produces such a segment, and `Name.text_parse` says that it loses nothing.
-/

namespace DatalogRam

/-- A dotted name. -/
structure Name where
  segments : List String
  deriving DecidableEq, Repr

namespace Name

/-- Read a name from its text. The empty text is one empty segment. -/
def parse (text : String) : Name :=
  ⟨(cutAt '.' text.toList).map String.ofList⟩

/-- The segments with dots between them. -/
def text (name : Name) : String :=
  String.ofList (joinWith '.' (name.segments.map String.toList))

/-- Add a segment at the end. -/
def append (name : Name) (segment : String) : Name :=
  ⟨name.segments ++ [segment]⟩

def first? (name : Name) : Option String :=
  name.segments.head?

/-- Reading a text and writing it again gives the text. -/
@[simp] theorem text_parse (text : String) : (parse text).text = text := by
  simp [parse, Name.text]

end Name

end DatalogRam
