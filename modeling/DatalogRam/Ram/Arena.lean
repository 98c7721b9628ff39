import DatalogRam.Ram.Tree

/-!
# Arenas

An arena keeps the nodes of machine code, each sort numbered from zero in the order in which nodes were added.
A node refers to its children by their numbers.

Code is built bottom up: `placeExpr` and its companions add a node whose children are already in the arena. What they
return is `Placed`: the number of the new node together with the tree that it is the root of, so that building
code and knowing what it means go hand in hand. A tree is copied by laying out all its nodes anew.
-/

namespace DatalogRam.Ram

structure Arena where
  exprs : Array (ExprNode Nat)
  conds : Array (CondNode Nat Nat)
  ops : Array (OpNode Nat Nat Nat)
  stmts : Array (StmtNode Nat Nat Nat)
  deriving DecidableEq

/-- The arena without nodes. -/
def Arena.empty : Arena :=
  ⟨#[], #[], #[], #[]⟩

instance : Inhabited Arena := ⟨.empty⟩

/-- Put another node in the place of an expression's root. -/
def Arena.setExpr (arena : Arena) (id : Nat) (node : ExprNode Nat) : Arena :=
  { arena with exprs := arena.exprs.setIfInBounds id node }

/-- A tree with the number of its root in an arena. -/
structure Placed (τ : Type) where
  id : Nat
  tree : τ

/-- Building code in an arena. -/
abbrev Build := StateM Arena

def placeExpr (node : ExprNode (Placed Expr)) : Build (Placed Expr) := do
  let arena ← get
  set { arena with exprs := arena.exprs.push (node.map Placed.id) }
  return ⟨arena.exprs.size, .ofNode (node.map Placed.tree)⟩

def placeCond (node : CondNode (Placed Expr) (Placed Cond)) : Build (Placed Cond) := do
  let arena ← get
  set { arena with conds := arena.conds.push (node.map Placed.id Placed.id) }
  return ⟨arena.conds.size, .ofNode (node.map Placed.tree Placed.tree)⟩

def placeOp (node : OpNode (Placed Expr) (Placed Cond) (Placed Op)) : Build (Placed Op) := do
  let arena ← get
  set { arena with ops := arena.ops.push (node.map Placed.id Placed.id Placed.id) }
  return ⟨arena.ops.size, .ofNode (node.map Placed.tree Placed.tree Placed.tree)⟩

def placeStmt (node : StmtNode (Placed Cond) (Placed Op) (Placed Stmt)) : Build (Placed Stmt) := do
  let arena ← get
  set { arena with stmts := arena.stmts.push (node.map Placed.id Placed.id Placed.id) }
  return ⟨arena.stmts.size, .ofNode (node.map Placed.tree Placed.tree Placed.tree)⟩

def signed (value : Int64) : Build (Placed Expr) :=
  placeExpr (.signed value)

def undefined : Build (Placed Expr) :=
  placeExpr .undefined

def negation (condition : Placed Cond) : Build (Placed Cond) :=
  placeCond (.not condition)

def filter (condition : Placed Cond) (nested : Placed Op) : Build (Placed Op) :=
  placeOp (.filter condition nested)

def query (operation : Placed Op) : Build (Placed Stmt) :=
  placeStmt (.query operation)

def sequence (statements : List (Placed Stmt)) : Build (Placed Stmt) :=
  placeStmt (.sequence statements)

/-- All of the conditions, joined from the left. -/
def conjunction : List (Placed Cond) → Build (Placed Cond)
  | [] => placeCond .true
  | first :: rest => rest.foldlM (fun joined condition => placeCond (.both joined condition)) first

mutual

/-- Lay out an expression: its children from left to right, then its root. -/
def copyExpr : Expr → Build (Placed Expr)
  | .signed value => placeExpr (.signed value)
  | .unsigned value => placeExpr (.unsigned value)
  | .float value => placeExpr (.float value)
  | .element tuple column => placeExpr (.element tuple column)
  | .argument index => placeExpr (.argument index)
  | .undefined => placeExpr .undefined
  | .operator op args => do placeExpr (.operator op (← copyExprs args))
  | .external name args => do placeExpr (.external name (← copyExprs args))
  | .pack args => do placeExpr (.pack (← copyExprs args))
  | .autoIncrement => placeExpr .autoIncrement

def copyExprs : List Expr → Build (List (Placed Expr))
  | [] => return []
  | expr :: exprs => do
      let copy ← copyExpr expr
      return copy :: (← copyExprs exprs)

end

/-- Lay out a condition: its children from left to right, then its root. -/
def copyCond : Cond → Build (Placed Cond)
  | .true => placeCond .true
  | .false => placeCond .false
  | .both left right => do
      let left ← copyCond left
      let right ← copyCond right
      placeCond (.both left right)
  | .not condition => do placeCond (.not (← copyCond condition))
  | .compare op left right => do
      let left ← copyExpr left
      let right ← copyExpr right
      placeCond (.compare op left right)
  | .holds relation values => do placeCond (.holds relation (← copyExprs values))
  | .isEmpty relation => placeCond (.isEmpty relation)

end DatalogRam.Ram
