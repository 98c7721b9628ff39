import DatalogRam.Operator
import DatalogRam.Decimal.Binary64
import DatalogRam.Datalog.Name

/-!
# Arguments and literals

The terms of a clause. Arguments and literals refer to each other, because an aggregate ranges over a body of
its own. Equality is structural, with doubles compared by their bits, and it is decided by `Argument.same` and
`Literal.same`.
-/

namespace DatalogRam

/-- A constant of the source program. -/
inductive Constant where
  | number (value : Int64)
  | unsigned (value : UInt64)
  | float (value : Binary64)
  | string (text : String)
  | nil
  deriving DecidableEq, Repr

mutual

/-- An argument of an atom, a comparison or a functor. -/
inductive Argument where
  | var (name : String)
  /-- A position whose value is not looked at. -/
  | unnamed
  | constant (value : Constant)
  | operator (op : Operator) (args : List Argument)
  /-- A functor that the user defines. -/
  | external (name : String) (args : List Argument)
  /-- A fold of `target` over the solutions of `body`; a count needs no target. -/
  | aggregate (function : Aggregation) (target : Option Argument) (body : List Literal)
  | record (args : List Argument)
  /-- A value that differs at every evaluation. -/
  | counter

/-- A part of a clause body. -/
inductive Literal where
  | positive (relation : Name) (args : List Argument)
  | negative (relation : Name) (args : List Argument)
  | comparison (op : Comparison) (left right : Argument)
  | truth (value : Bool)

end

mutual

/-- Structural equality of arguments. -/
def Argument.same : Argument → Argument → Bool
  | .var name, .var name' => name == name'
  | .unnamed, .unnamed => true
  | .constant value, .constant value' => value == value'
  | .operator op args, .operator op' args' => op == op' && Argument.sameAll args args'
  | .external name args, .external name' args' => name == name' && Argument.sameAll args args'
  | .aggregate function target body, .aggregate function' target' body' =>
      function == function' && Argument.sameOption target target' && Literal.sameAll body body'
  | .record args, .record args' => Argument.sameAll args args'
  | .counter, .counter => true
  | _, _ => false

/-- Structural equality of lists of arguments. -/
def Argument.sameAll : List Argument → List Argument → Bool
  | [], [] => true
  | arg :: args, arg' :: args' => arg.same arg' && Argument.sameAll args args'
  | _, _ => false

/-- Structural equality of targets. -/
def Argument.sameOption : Option Argument → Option Argument → Bool
  | none, none => true
  | some arg, some arg' => arg.same arg'
  | _, _ => false

/-- Structural equality of literals. -/
def Literal.same : Literal → Literal → Bool
  | .positive relation args, .positive relation' args' =>
      relation == relation' && Argument.sameAll args args'
  | .negative relation args, .negative relation' args' =>
      relation == relation' && Argument.sameAll args args'
  | .comparison op left right, .comparison op' left' right' =>
      op == op' && left.same left' && right.same right'
  | .truth value, .truth value' => value == value'
  | _, _ => false

/-- Structural equality of bodies. -/
def Literal.sameAll : List Literal → List Literal → Bool
  | [], [] => true
  | literal :: literals, literal' :: literals' =>
      literal.same literal' && Literal.sameAll literals literals'
  | _, _ => false

end

mutual

theorem Argument.same_iff : ∀ left right : Argument, left.same right = true ↔ left = right
  | .var _, right => by cases right <;> simp [Argument.same]
  | .unnamed, right => by cases right <;> simp [Argument.same]
  | .constant _, right => by cases right <;> simp [Argument.same]
  | .operator _ args, right => by
      cases right <;> simp [Argument.same, Argument.sameAll_iff args]
  | .external _ args, right => by
      cases right <;> simp [Argument.same, Argument.sameAll_iff args]
  | .aggregate _ target body, right => by
      cases right <;>
        simp [Argument.same, Argument.sameOption_iff target, Literal.sameAll_iff body, and_assoc]
  | .record args, right => by
      cases right <;> simp [Argument.same, Argument.sameAll_iff args]
  | .counter, right => by cases right <;> simp [Argument.same]

theorem Argument.sameAll_iff :
    ∀ left right : List Argument, Argument.sameAll left right = true ↔ left = right
  | [], right => by cases right <;> simp [Argument.sameAll]
  | arg :: args, right => by
      cases right <;> simp [Argument.sameAll, Argument.same_iff arg, Argument.sameAll_iff args]

theorem Argument.sameOption_iff :
    ∀ left right : Option Argument, Argument.sameOption left right = true ↔ left = right
  | none, right => by cases right <;> simp [Argument.sameOption]
  | some arg, right => by cases right <;> simp [Argument.sameOption, Argument.same_iff arg]

theorem Literal.same_iff : ∀ left right : Literal, left.same right = true ↔ left = right
  | .positive _ args, right => by
      cases right <;> simp [Literal.same, Argument.sameAll_iff args]
  | .negative _ args, right => by
      cases right <;> simp [Literal.same, Argument.sameAll_iff args]
  | .comparison _ left right, other => by
      cases other <;>
        simp [Literal.same, Argument.same_iff left, Argument.same_iff right, and_assoc]
  | .truth _, right => by cases right <;> simp [Literal.same]

theorem Literal.sameAll_iff :
    ∀ left right : List Literal, Literal.sameAll left right = true ↔ left = right
  | [], right => by cases right <;> simp [Literal.sameAll]
  | literal :: literals, right => by
      cases right <;>
        simp [Literal.sameAll, Literal.same_iff literal, Literal.sameAll_iff literals]

end

instance : DecidableEq Argument :=
  fun left right => decidable_of_iff _ (Argument.same_iff left right)

instance : DecidableEq Literal :=
  fun left right => decidable_of_iff _ (Literal.same_iff left right)

instance : Inhabited Argument := ⟨.unnamed⟩

instance : Inhabited Literal := ⟨.truth true⟩

/-- An aggregate on its own, as the key under which its value is looked up. -/
structure Aggregate where
  function : Aggregation
  target : Option Argument
  body : List Literal
  deriving DecidableEq

def Aggregate.toArgument (aggregate : Aggregate) : Argument :=
  .aggregate aggregate.function aggregate.target aggregate.body

def Argument.isVariable : Argument → Bool
  | .var _ => true
  | _ => false

end DatalogRam
