import DatalogRam.Analysis.Kind

/-!
# Why a program cannot be lowered
-/

namespace DatalogRam.Lowering

inductive LoweringError where
  | undeclaredRelation (name : String)
  /-- An argument that descriptions of clauses have no name for. -/
  | unhandledArgument (argument : String)
  | missingSlot (variableName : String)
  | undefinedVariable (variableName : String)
  /-- A clause whose head relation is not declared. -/
  | unnumberedClause (clause : String)
  | unboundAggregate (aggregate : String)
  /-- An aggregate over no or several positive atoms. -/
  | unsupportedAggregate (aggregate : String)
  | type (error : Analysis.TypeError)
  deriving DecidableEq, Repr

def LoweringError.message : LoweringError → String
  | undeclaredRelation name => "relation '" ++ name ++ "' is used but never declared"
  | unhandledArgument argument => "unhandled argument '" ++ argument ++ "'"
  | missingSlot name => "variable '" ++ name ++ "' has no subroutine slot"
  | undefinedVariable name => "variable '" ++ name ++ "' is not bound by the clause body"
  | unnumberedClause clause => "clause '" ++ clause ++ "' has no sequence number"
  | unboundAggregate aggregate => "aggregate '" ++ aggregate ++ "' has no generator"
  | unsupportedAggregate aggregate => "aggregate '" ++ aggregate ++ "' must range over exactly one atom"
  | type error => error.message

end DatalogRam.Lowering
