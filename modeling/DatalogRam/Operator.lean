/-!
# Operators

The built-in functors, comparisons and aggregations. Clauses and machine code use the same ones.
-/

namespace DatalogRam

/-- A built-in functor. -/
inductive Operator where
  | add
  | sub
  | mul
  | div
  | mod
  | neg
  | max
  | min
  | cat
  | strlen
  deriving DecidableEq, Repr

namespace Operator

/-- The name by which clauses apply the functor to a list of arguments. -/
def name : Operator → String
  | add => "add"
  | sub => "sub"
  | mul => "mul"
  | div => "div"
  | mod => "mod"
  | neg => "neg"
  | max => "max"
  | min => "min"
  | cat => "cat"
  | strlen => "strlen"

/-- The name of the functor in machine code. -/
def symbol : Operator → String
  | add => "+"
  | sub => "-"
  | mul => "*"
  | div => "/"
  | mod => "%"
  | neg => "-"
  | max => "max"
  | min => "min"
  | cat => "cat"
  | strlen => "strlen"

/-- Whether two arguments are written around the symbol. -/
def isBinarySymbol : Operator → Bool
  | add | sub | mul | div | mod => true
  | neg | max | min | cat | strlen => false

/-- The functor applied to arguments whose texts are given, as clauses write it. -/
def applied (op : Operator) : List String → String
  | [left, right] =>
      if op.isBinarySymbol then "(" ++ left ++ op.symbol ++ right ++ ")"
      else op.name ++ "(" ++ left ++ "," ++ right ++ ")"
  | texts => op.name ++ "(" ++ ",".intercalate texts ++ ")"

end Operator

/-- A comparison of two values. -/
inductive Comparison where
  | eq
  | ne
  | lt
  | le
  | gt
  | ge
  deriving DecidableEq, Repr

namespace Comparison

def symbol : Comparison → String
  | eq => "="
  | ne => "!="
  | lt => "<"
  | le => "<="
  | gt => ">"
  | ge => ">="

/-- Values compare as signed words. -/
def holds : Comparison → Int64 → Int64 → Bool
  | eq, left, right => decide (left = right)
  | ne, left, right => decide (left ≠ right)
  | lt, left, right => decide (left < right)
  | le, left, right => decide (left ≤ right)
  | gt, left, right => decide (right < left)
  | ge, left, right => decide (right ≤ left)

end Comparison

/-- A fold over the rows that satisfy a condition. -/
inductive Aggregation where
  | count
  | sum
  | min
  | max
  | mean
  deriving DecidableEq, Repr

namespace Aggregation

/-- The name of the aggregation in clauses. -/
def name : Aggregation → String
  | count => "count"
  | sum => "sum"
  | min => "min"
  | max => "max"
  | mean => "mean"

/-- The name of the aggregation in machine code. -/
def keyword : Aggregation → String
  | count => "COUNT"
  | sum => "SUM"
  | min => "MIN"
  | max => "MAX"
  | mean => "MEAN"

end Aggregation

end DatalogRam
