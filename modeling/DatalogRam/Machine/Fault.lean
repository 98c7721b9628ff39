import DatalogRam.Operator

/-!
# Run-time faults

What can go wrong while machine code runs.
-/

namespace DatalogRam.Machine

inductive Fault where
  | unknownSubroutine (name : String)
  | argumentCount (name : String) (expected actual : Nat)
  | unknownArgument (index : Nat)
  | unboundTuple (tuple : Nat)
  | missingColumn (tuple column : Nat)
  /-- A wildcard was evaluated. -/
  | undefinedValue
  | divisionByZero
  | unknownSymbol (ordinal : Int64)
  | externalFunctor (name : String)
  | record
  /-- An operator has fewer operands than it needs. -/
  | operandCount (op : Operator) (count : Nat)
  deriving DecidableEq, Repr

def Fault.message : Fault → String
  | unknownSubroutine name => "unknown subroutine '" ++ name ++ "'"
  | argumentCount name expected actual =>
      "subroutine '" ++ name ++ "' expects " ++ toString expected ++ " arguments, got " ++ toString actual
  | unknownArgument index => "subroutine argument " ++ toString index ++ " is out of range"
  | unboundTuple tuple => "tuple t" ++ toString tuple ++ " is not bound"
  | missingColumn tuple column => "tuple t" ++ toString tuple ++ " has no element " ++ toString column
  | undefinedValue => "undefined value used outside an existence check"
  | divisionByZero => "division by zero"
  | unknownSymbol ordinal => "symbol ordinal " ++ toString ordinal.toInt ++ " is not interned"
  | externalFunctor name => "cannot evaluate user-defined functor '" ++ name ++ "'"
  | record => "cannot evaluate records"
  | operandCount op count => "cannot evaluate " ++ op.symbol ++ " with " ++ toString count ++ " args"

end DatalogRam.Machine
