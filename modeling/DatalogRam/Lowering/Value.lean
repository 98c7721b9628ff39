import DatalogRam.Datalog.Text
import DatalogRam.Lowering.Draft
import DatalogRam.Lowering.Sites

/-!
# Code for arguments

An argument becomes an expression that reads variables and aggregates at their sites. The arguments of a
functor come before the functor, and a text constant becomes its ordinal among the symbols.
-/

namespace DatalogRam.Lowering

open Ram

def lowerConstant : Constant → Lower (Placed Expr)
  | .number value => placeExpr (.signed value)
  | .unsigned value => placeExpr (.unsigned value)
  | .float value => placeExpr (.float value)
  | .string text => do placeExpr (.signed (← encodeSymbol text))
  | .nil => placeExpr (.signed 0)

/-- Read a value at its site. -/
def readSite (site : Site) : Build (Placed Expr) :=
  placeExpr (.element site.tuple site.column)

mutual

def lowerValue (sites : Sites) : Argument → Lower (Placed Expr)
  | .var name =>
      match sites.definition? name with
      | some site => readSite site
      | none => throw (.undefinedVariable name)
  | .unnamed => placeExpr .undefined
  | .constant value => lowerConstant value
  | .operator op args => do placeExpr (.operator op (← lowerValues sites args))
  | .external name args => do placeExpr (.external name (← lowerValues sites args))
  | .aggregate function target body =>
      match sites.aggregate? ⟨function, target, body⟩ with
      | some site => readSite site
      | none => throw (.unboundAggregate (Argument.aggregate function target body).text)
  | .record args => do placeExpr (.pack (← lowerValues sites args))
  | .counter => placeExpr .autoIncrement

def lowerValues (sites : Sites) : List Argument → Lower (List (Placed Expr))
  | [] => return []
  | arg :: args => do
      let value ← lowerValue sites arg
      return value :: (← lowerValues sites args)

end

end DatalogRam.Lowering
