import DatalogRam.Datalog.Clause

/-!
# Occurrences of variables

The variables of a term in the order of a depth-first walk, each as often as it occurs. The target of an
aggregate comes before its body.

Two kinds of variables are never written by a user: those that stand for an unnamed position, and those that
stand for the level of a derivation. Both are known by how their names begin.
-/

namespace DatalogRam

mutual

def Argument.variables : Argument → List String
  | .var name => [name]
  | .unnamed => []
  | .constant _ => []
  | .operator _ args => Argument.variablesOfAll args
  | .external _ args => Argument.variablesOfAll args
  | .aggregate _ target body => Argument.variablesOfOption target ++ Literal.variablesOfAll body
  | .record args => Argument.variablesOfAll args
  | .counter => []

def Argument.variablesOfAll : List Argument → List String
  | [] => []
  | arg :: args => arg.variables ++ Argument.variablesOfAll args

def Argument.variablesOfOption : Option Argument → List String
  | none => []
  | some arg => arg.variables

def Literal.variables : Literal → List String
  | .positive _ args => Argument.variablesOfAll args
  | .negative _ args => Argument.variablesOfAll args
  | .comparison _ left right => left.variables ++ right.variables
  | .truth _ => []

def Literal.variablesOfAll : List Literal → List String
  | [] => []
  | literal :: literals => literal.variables ++ Literal.variablesOfAll literals

end

theorem Argument.mem_variablesOfAll {name : String} {args : List Argument} :
    name ∈ Argument.variablesOfAll args ↔ ∃ arg ∈ args, name ∈ arg.variables := by
  induction args with
  | nil => simp [Argument.variablesOfAll]
  | cons arg rest ih => simp [Argument.variablesOfAll, ih]

theorem Literal.mem_variablesOfAll {name : String} {literals : List Literal} :
    name ∈ Literal.variablesOfAll literals ↔ ∃ literal ∈ literals, name ∈ literal.variables := by
  induction literals with
  | nil => simp [Literal.variablesOfAll]
  | cons literal rest ih => simp [Literal.variablesOfAll, ih]

def Atom.variables (atom : Atom) : List String :=
  Argument.variablesOfAll atom.args

/-- Whether the variable stands for an unnamed position. -/
def isUnderscoreVariable (name : String) : Bool :=
  beginsWith "+underscore" name

/-- Whether the variable stands for the level of a derivation. -/
def isLevelVariable (name : String) : Bool :=
  beginsWith "@level_num" name

end DatalogRam
