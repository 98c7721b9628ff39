import DatalogRam.Datalog.Argument

/-!
# Atoms and clauses

A clause says that its head holds whenever all literals of its body do. A clause without a body is a fact.
-/

namespace DatalogRam

/-- A relation applied to arguments. -/
structure Atom where
  relation : Name
  args : List Argument
  deriving DecidableEq

def Atom.arity (atom : Atom) : Nat :=
  atom.args.length

namespace Literal

/-- The atom of a positive or negated literal. -/
def atom? : Literal → Option Atom
  | positive relation args => some ⟨relation, args⟩
  | negative relation args => some ⟨relation, args⟩
  | comparison .. => none
  | truth _ => none

def positiveAtom? : Literal → Option Atom
  | positive relation args => some ⟨relation, args⟩
  | _ => none

def negatedAtom? : Literal → Option Atom
  | negative relation args => some ⟨relation, args⟩
  | _ => none

/-- Constraints are the literals without an atom. -/
def isConstraint (literal : Literal) : Bool :=
  literal.atom?.isNone

end Literal

/-- A fact or a rule. -/
structure Clause where
  head : Atom
  body : List Literal
  deriving DecidableEq

namespace Clause

def isFact (clause : Clause) : Bool :=
  clause.body.isEmpty

/-- The atoms that the body asks for, in order. -/
def positiveAtoms (clause : Clause) : List Atom :=
  clause.body.filterMap Literal.positiveAtom?

/-- The atoms that the body excludes, in order. -/
def negatedAtoms (clause : Clause) : List Atom :=
  clause.body.filterMap Literal.negatedAtom?

def constraints (clause : Clause) : List Literal :=
  clause.body.filter Literal.isConstraint

/-- The body with its constraints moved behind all other literals, both in their order. -/
def constraintsLast (clause : Clause) : List Literal :=
  clause.body.filter (fun literal => !literal.isConstraint) ++ clause.constraints

end Clause

end DatalogRam
