import DatalogRam.Datalog.Variables
import DatalogRam.Lowering.Draft
import DatalogRam.Lowering.Sites

/-!
# Slots

A subroutine that explains a clause takes the values of the clause's variables as arguments. Every variable has
one slot, its position among the arguments. The variables that a user wrote come first and those that stand for
unnamed positions follow, both in the order in which a walk over the body and then the head meets them.
Variables for the level of a derivation have no slot. They are erased: where one is read, any value will do.
-/

namespace DatalogRam.Lowering

open Ram

structure Slots where
  /-- The variables in the order of their slots. -/
  names : List String
  erased : List String
  deriving DecidableEq, Repr

/-- The variables of a clause, body first, each as often as it occurs. -/
def clauseVariables (clause : Clause) : List String :=
  Literal.variablesOfAll clause.body ++ clause.head.variables

namespace Slots

def empty : Slots :=
  ⟨[], []⟩

/-- Give slots to the variables that a user wrote, and erase those for levels. -/
def addNamed (slots : Slots) (clause : Clause) : Slots where
  names :=
    (slots.names ++ (clauseVariables clause).filter fun name =>
      !isLevelVariable name && !isUnderscoreVariable name).eraseDups
  erased := (slots.erased ++ (clauseVariables clause).filter isLevelVariable).eraseDups

/-- Give slots to the variables that stand for unnamed positions. -/
def addUnderscores (slots : Slots) (clause : Clause) : Slots :=
  { slots with
    names :=
      (slots.names ++ (clauseVariables clause).filter isUnderscoreVariable).eraseDups }

def ofClause (clause : Clause) : Slots :=
  (empty.addNamed clause).addUnderscores clause

def size (slots : Slots) : Nat :=
  slots.names.length

def slot? (slots : Slots) (name : String) : Option Nat :=
  slots.names.idxOf? name

/-- Sites under which code may be written before its reads are redirected: each slot is a row of its own, and
the erased variables follow. -/
def sites (slots : Slots) : Sites :=
  (slots.names ++ slots.erased).zipIdx.foldl
    (fun sites (name, position) => sites.addVariable name ⟨position, 0⟩) .empty

/-- Read arguments instead of rows, and any value instead of an erased variable. -/
def redirect {ρ : Type} (slots : Slots) : ExprNode ρ → Except LoweringError (Option (ExprNode ρ))
  | .element tuple _ =>
      if tuple < slots.size then .ok (some (.argument tuple))
      else if tuple - slots.size < slots.erased.length then .ok (some .undefined)
      else .error (.missingSlot (tupleText tuple))
  | _ => .ok none

/-- Redirect all reads of an expression that was written under `Slots.sites`. -/
def redirectExpr (slots : Slots) (expr : Placed Expr) : Lower (Placed Expr) := do
  tryInArena (replaceExpr (fun node => liftExcept (slots.redirect node)) expr.id)
  return ⟨expr.id, ← liftExcept (expr.tree.replace slots.redirect)⟩

/-- Redirect all reads of a condition that was written under `Slots.sites`. -/
def redirectCond (slots : Slots) (condition : Placed Cond) : Lower (Placed Cond) := do
  tryInArena (replaceCond (fun node => liftExcept (slots.redirect node)) condition.id)
  return ⟨condition.id, ← liftExcept (condition.tree.replace slots.redirect)⟩

end Slots

end DatalogRam.Lowering
