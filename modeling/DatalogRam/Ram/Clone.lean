import DatalogRam.Ram.Arena

/-!
# Copies of what is in an arena

The nodes below a number are laid out anew in the same arena, children before their parent and from left to right.
The nodes that were there before stay as they are. There is no copy if a number is missing or if nodes refer to one
another in a circle.
-/

namespace DatalogRam.Ram

/-- Exchange the children of a node one after another, from left to right. -/
def ExprNode.mapM {m : Type → Type} [Monad m] {ρ τ : Type} (f : ρ → m τ) : ExprNode ρ → m (ExprNode τ)
  | .signed value => return .signed value
  | .unsigned value => return .unsigned value
  | .float value => return .float value
  | .element tuple column => return .element tuple column
  | .argument index => return .argument index
  | .undefined => return .undefined
  | .operator op args => return .operator op (← args.mapM f)
  | .external name args => return .external name (← args.mapM f)
  | .pack args => return .pack (← args.mapM f)
  | .autoIncrement => return .autoIncrement

def CondNode.mapM {m : Type → Type} [Monad m] {ε κ ε' κ' : Type} (f : ε → m ε') (g : κ → m κ') :
    CondNode ε κ → m (CondNode ε' κ')
  | .true => return .true
  | .false => return .false
  | .both left right => return .both (← g left) (← g right)
  | .not condition => return .not (← g condition)
  | .compare op left right => return .compare op (← f left) (← f right)
  | .holds relation values => return .holds relation (← values.mapM f)
  | .isEmpty relation => return .isEmpty relation

/-- Copy the expression below `id`, if it is no deeper than `depth`. -/
def cloneExprWithin : Nat → Nat → OptionT Build (Placed Expr)
  | 0, _ => failure
  | depth + 1, id => do
      match (← getThe Arena).exprs[id]? with
      | none => failure
      | some node => placeExpr (← node.mapM (cloneExprWithin depth))

def cloneExpr (id : Nat) : OptionT Build (Placed Expr) := do
  cloneExprWithin (← getThe Arena).exprs.size id

/-- Copy the condition below `id`, if its nodes of this sort are no deeper than `depth`. -/
def cloneCondWithin : Nat → Nat → OptionT Build (Placed Cond)
  | 0, _ => failure
  | depth + 1, id => do
      match (← getThe Arena).conds[id]? with
      | none => failure
      | some node => placeCond (← node.mapM cloneExpr (cloneCondWithin depth))

def cloneCond (id : Nat) : OptionT Build (Placed Cond) := do
  cloneCondWithin (← getThe Arena).conds.size id

end DatalogRam.Ram
