import DatalogRam.EventFilter.Directive
import DatalogRam.Logging
import DatalogRam.Text

/-!
# Filters on events

The filters of the library that tests use. A filter is a list of directives with commas between them. About
events of a target and a level the most specific directive decides whose target theirs begins with: the one with
the longest target, then one that asks for a field, and then the one whose field has the greater name. Of two that
are equally specific the later one counts.
-/

namespace DatalogRam

abbrev EventFilter := List Directive

/-- Whether a directive can decide about the events of a target. No span is open, so those that need one do not
count. Fields are not looked at before there is an event. -/
def Directive.concerns (directive : Directive) (target : String) : Bool :=
  directive.isUnscoped && beginsWith directive.target target

/-- Whether a directive is as specific as another one or more. -/
def Directive.supersedes (directive other : Directive) : Bool :=
  if directive.target.length ≠ other.target.length then decide (other.target.length < directive.target.length)
  else
    match other.field, directive.field with
    | none, _ => true
    | some _, none => false
    | some test, some test' => decide (test.name ≤ test'.name)

namespace EventFilter

/-- The parts of a text between commas. Nothing between two commas is no part, so the empty text has none. -/
def parts (text : String) : List (List Char) :=
  (cutAt ',' text.toList).filter (!·.isEmpty)

def parse? (text : String) : Option EventFilter :=
  (parts text).mapM Directive.parse?

/-- Read a filter, leaving out what is no directive. -/
def parseLeniently (text : String) : EventFilter :=
  (parts text).filterMap Directive.parse?

/-- Of two directives the more specific one, and the later one of two that are equally specific. -/
def choose (best : Option Directive) (directive : Directive) : Option Directive :=
  match best with
  | none => some directive
  | some best => if directive.supersedes best then some directive else some best

/-- The directive that decides about the events of a target. -/
def deciding? (filter : EventFilter) (target : String) : Option Directive :=
  (filter.filter (·.concerns target)).foldl choose none

/-- Whether events of a target and a level are let through. -/
def lets (filter : EventFilter) (target : String) (level : Level) : Bool :=
  match filter.deciding? target with
  | some directive => directive.threshold.any level.reaches
  | none => false

def library : FilterLibrary EventFilter where
  read? := parse?
  readLeniently := parseLeniently
  lets := lets

end EventFilter

end DatalogRam
