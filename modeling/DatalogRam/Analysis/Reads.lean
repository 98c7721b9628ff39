import DatalogRam.Datalog.Program

/-!
# The relations that a body reads

A body reads the relations of its positive and negated atoms and those of the bodies of its aggregates, at any
depth. They are listed in the order in which a walk meets them, each as often as it is met; an aggregate's
body comes before its target.
-/

namespace DatalogRam

mutual

/-- The relations read by the aggregates within an argument. -/
def Argument.reads : Argument → List Name
  | .var _ => []
  | .unnamed => []
  | .constant _ => []
  | .operator _ args => Argument.readsOfAll args
  | .external _ args => Argument.readsOfAll args
  | .aggregate _ target body => Literal.readsOfAll body ++ Argument.readsOfOption target
  | .record args => Argument.readsOfAll args
  | .counter => []

def Argument.readsOfAll : List Argument → List Name
  | [] => []
  | arg :: args => arg.reads ++ Argument.readsOfAll args

def Argument.readsOfOption : Option Argument → List Name
  | none => []
  | some arg => arg.reads

def Literal.reads : Literal → List Name
  | .positive relation args => relation :: Argument.readsOfAll args
  | .negative relation args => relation :: Argument.readsOfAll args
  | .comparison _ left right => left.reads ++ right.reads
  | .truth _ => []

def Literal.readsOfAll : List Literal → List Name
  | [] => []
  | literal :: literals => literal.reads ++ Literal.readsOfAll literals

end

/-- The relations that the body of a clause reads. -/
def Clause.reads (clause : Clause) : List Name :=
  Literal.readsOfAll clause.body

end DatalogRam
