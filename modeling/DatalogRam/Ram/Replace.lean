import DatalogRam.Ram.Arena

/-!
# Replacing expressions in place

A rule is offered the nodes of an expression from the root down. Where it answers with a node, that node takes
the place of the offered one and its children are not visited; elsewhere the walk goes on to the children. The
first failure of the rule ends the walk, and what was replaced before stays replaced.

`replaceExpr` does this in an arena, where every reference to a replaced node sees the change. `Expr.replace`
is the same on a tree.
-/

namespace DatalogRam.Ram

/-- Replace nodes below `id` that are no deeper than `depth`. The rule may keep a state of its own. -/
def replaceWithin {m : Type → Type} [Monad m] [MonadStateOf Arena m]
    (rule : ExprNode Nat → m (Option (ExprNode Nat))) : Nat → Nat → m Unit
  | 0, _ => return
  | depth + 1, id => do
      let arena ← getThe Arena
      match arena.exprs[id]? with
      | none => return
      | some node =>
          match ← rule node with
          | some replacement => modifyThe Arena (·.setExpr id replacement)
          | none => node.children.forM (replaceWithin rule depth)

/-- Replace nodes of the expression below `id`. -/
def replaceExpr {m : Type → Type} [Monad m] [MonadStateOf Arena m]
    (rule : ExprNode Nat → m (Option (ExprNode Nat))) (id : Nat) : m Unit := do
  replaceWithin rule (← getThe Arena).exprs.size id

/-- The numbers of the expressions directly in the condition below `id`, from left to right, down to
`depth`. -/
def Arena.exprsWithin (arena : Arena) : Nat → Nat → List Nat
  | 0, _ => []
  | depth + 1, id =>
      match arena.conds[id]? with
      | some (.both left right) => arena.exprsWithin depth left ++ arena.exprsWithin depth right
      | some (.not condition) => arena.exprsWithin depth condition
      | some (.compare _ left right) => [left, right]
      | some (.holds _ values) => values
      | some .true => []
      | some .false => []
      | some (.isEmpty _) => []
      | none => []

def Arena.exprsOfCond (arena : Arena) (id : Nat) : List Nat :=
  arena.exprsWithin arena.conds.size id

/-- Replace nodes in every expression of the condition below `id`. -/
def replaceCond {m : Type → Type} [Monad m] [MonadStateOf Arena m]
    (rule : ExprNode Nat → m (Option (ExprNode Nat))) (id : Nat) : m Unit := do
  let arena ← getThe Arena
  (arena.exprsOfCond id).forM (replaceExpr rule)

mutual

/-- Replace nodes of an expression from the root down. -/
def Expr.replace {ε : Type} (rule : ExprNode Expr → Except ε (Option (ExprNode Expr))) :
    Expr → Except ε Expr
  | .operator op args => do
      match ← rule (.operator op args) with
      | some replacement => return .ofNode replacement
      | none => return .operator op (← Expr.replaceAll rule args)
  | .external name args => do
      match ← rule (.external name args) with
      | some replacement => return .ofNode replacement
      | none => return .external name (← Expr.replaceAll rule args)
  | .pack args => do
      match ← rule (.pack args) with
      | some replacement => return .ofNode replacement
      | none => return .pack (← Expr.replaceAll rule args)
  | leaf => do
      match ← rule leaf.toNode with
      | some replacement => return .ofNode replacement
      | none => return leaf

def Expr.replaceAll {ε : Type} (rule : ExprNode Expr → Except ε (Option (ExprNode Expr))) :
    List Expr → Except ε (List Expr)
  | [] => return []
  | expr :: exprs => do
      let expr ← expr.replace rule
      return expr :: (← Expr.replaceAll rule exprs)

end

/-- Replace nodes in every expression of a condition, from left to right. -/
def Cond.replace {ε : Type} (rule : ExprNode Expr → Except ε (Option (ExprNode Expr))) :
    Cond → Except ε Cond
  | .both left right => do
      let left ← left.replace rule
      return .both left (← right.replace rule)
  | .not condition => do return .not (← condition.replace rule)
  | .compare op left right => do
      let left ← left.replace rule
      return .compare op left (← right.replace rule)
  | .holds relation values => do return .holds relation (← Expr.replaceAll rule values)
  | .true => return .true
  | .false => return .false
  | .isEmpty relation => return .isEmpty relation

end DatalogRam.Ram
