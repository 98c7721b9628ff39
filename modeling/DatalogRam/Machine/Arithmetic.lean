import DatalogRam.Machine.Fault
import DatalogRam.Ram.Symbols

/-!
# Operators and aggregations on words

Addition, subtraction, multiplication and negation wrap around. Division and remainder go toward zero and
fail where the quotient is not a word. Texts are handled by their ordinals in a table of symbols.
-/

namespace DatalogRam

/-- The lesser of two words. -/
def lesser (left right : Int64) : Int64 :=
  if right < left then right else left

/-- The greater of two words. -/
def greater (left right : Int64) : Int64 :=
  if left < right then right else left

/-- Fold a list without a start value. -/
def foldFirst (combine : Int64 → Int64 → Int64) : List Int64 → Option Int64
  | [] => none
  | first :: rest => some (rest.foldl combine first)

/-- The sum of words, wrapping around. -/
def wordSum (values : List Int64) : Int64 :=
  values.foldl (· + ·) 0

/-- The value of an aggregation. Of no values there is no minimum, maximum or mean. -/
def Aggregation.fold : Aggregation → List Int64 → Option Int64
  | count, values => some (Int64.ofNat values.length)
  | sum, values => some (wordSum values)
  | min, values => foldFirst lesser values
  | max, values => foldFirst greater values
  | mean, values => if values.isEmpty then none else some (wordSum values / Int64.ofNat values.length)

namespace Machine

/-- Whether a quotient is a word: the divisor is not zero, and the least word is not divided by minus one. -/
def divides (dividend divisor : Int64) : Bool :=
  divisor != 0 && !(dividend == Int64.minValue && divisor == -1)

/-- The texts at some ordinals, one behind the other. -/
def joinedTexts (symbols : Ram.Symbols) : List Int64 → Except Fault String
  | [] => .ok ""
  | ordinal :: ordinals =>
      match symbols.decode? ordinal with
      | none => .error (.unknownSymbol ordinal)
      | some text =>
          match joinedTexts symbols ordinals with
          | .error fault => .error fault
          | .ok texts => .ok (text ++ texts)

/-- Apply an operator on two words. Further words are ignored. -/
def applyBinary (op : Operator) (combine : Int64 → Int64 → Except Fault Int64) :
    List Int64 → Except Fault Int64
  | left :: right :: _ => combine left right
  | values => .error (.operandCount op values.length)

/-- The result of an operator that does not look at symbols. -/
def applyWords (op : Operator) (fold : List Int64 → Option Int64) (values : List Int64) :
    Except Fault Int64 :=
  match fold values with
  | some result => .ok result
  | none => .error (.operandCount op values.length)

/-- The result of an operator, and the symbols after it: joining texts may intern a new one. -/
def applyOperator (symbols : Ram.Symbols) (op : Operator) (values : List Int64) :
    Except Fault (Int64 × Ram.Symbols) :=
  let keep (result : Except Fault Int64) : Except Fault (Int64 × Ram.Symbols) :=
    result.map fun value => (value, symbols)
  match op with
  | .add => keep (applyBinary op (fun left right => .ok (left + right)) values)
  | .sub => keep (applyBinary op (fun left right => .ok (left - right)) values)
  | .mul => keep (applyBinary op (fun left right => .ok (left * right)) values)
  | .div =>
      keep (applyBinary op
        (fun left right => if divides left right then .ok (left / right) else .error .divisionByZero) values)
  | .mod =>
      keep (applyBinary op
        (fun left right => if divides left right then .ok (left % right) else .error .divisionByZero) values)
  | .neg => keep (applyWords op (fun values => values.head?.map fun value => -value) values)
  | .max => keep (applyWords op (foldFirst greater) values)
  | .min => keep (applyWords op (foldFirst lesser) values)
  | .cat => (joinedTexts symbols values).map symbols.encode
  | .strlen =>
      match values with
      | [] => .error (.operandCount op 0)
      | ordinal :: _ =>
          match symbols.decode? ordinal with
          | some text => .ok (Int64.ofNat text.length, symbols)
          | none => .error (.unknownSymbol ordinal)

end Machine

end DatalogRam
