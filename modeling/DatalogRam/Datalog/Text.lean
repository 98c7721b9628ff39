import DatalogRam.Datalog.Clause
import DatalogRam.Decimal.Layout

/-!
# The text of clauses

How arguments, literals and clauses are written. The text of a string constant stands between quotes as it is,
without escapes.
-/

namespace DatalogRam

/-- Doubles in clauses are always positional, and whole ones have no point. -/
def clauseLayout : Decimal.Layout where
  positional := none
  wholeFraction := false
  exponentPlus := false
  tie := .up

def Constant.text : Constant → String
  | .number value => toString value.toInt
  | .unsigned value => toString value.toNat
  | .float value => clauseLayout.render value
  | .string text => "\"" ++ text ++ "\""
  | .nil => "nil"

mutual

/-- Arithmetic on two arguments is written between them, every other functor before a list. -/
def Argument.text : Argument → String
  | .var name => name
  | .unnamed => "_"
  | .constant value => value.text
  | .operator op args => Operator.applied op (Argument.texts args)
  | .external name args => "@" ++ name ++ "(" ++ ",".intercalate (Argument.texts args) ++ ")"
  | .aggregate function target body =>
      function.name ++ Argument.targetText target ++ " : \x7b " ++
        ", ".intercalate (Literal.texts body) ++ " \x7d"
  | .record args => "[" ++ ",".intercalate (Argument.texts args) ++ "]"
  | .counter => "$"

def Argument.texts : List Argument → List String
  | [] => []
  | arg :: args => arg.text :: Argument.texts args

def Argument.targetText : Option Argument → String
  | none => ""
  | some target => " " ++ target.text

def Literal.text : Literal → String
  | .positive relation args => relation.text ++ "(" ++ ",".intercalate (Argument.texts args) ++ ")"
  | .negative relation args =>
      "!" ++ relation.text ++ "(" ++ ",".intercalate (Argument.texts args) ++ ")"
  | .comparison op left right => left.text ++ " " ++ op.symbol ++ " " ++ right.text
  | .truth value => if value then "true" else "false"

def Literal.texts : List Literal → List String
  | [] => []
  | literal :: literals => literal.text :: Literal.texts literals

end

def Atom.text (atom : Atom) : String :=
  (Literal.positive atom.relation atom.args).text

def Aggregate.text (aggregate : Aggregate) : String :=
  aggregate.toArgument.text

def Clause.text (clause : Clause) : String :=
  if clause.isFact then clause.head.text ++ "."
  else clause.head.text ++ " :- " ++ ", ".intercalate (Literal.texts clause.body) ++ "."

end DatalogRam
