import DatalogRam.Ram.Arena

/-!
# From an arena to trees

`Arena.exprAt?` and its companions read the tree below a number. On a path from a node to a leaf no number
repeats unless the nodes form a cycle, so the number of nodes bounds the depth of the tree.
-/

namespace DatalogRam.Ram

/-- Replace the children of a node, or give up if one of them cannot be replaced. -/
def ExprNode.mapOption {ρ τ : Type} (f : ρ → Option τ) : ExprNode ρ → Option (ExprNode τ)
  | .signed value => some (.signed value)
  | .unsigned value => some (.unsigned value)
  | .float value => some (.float value)
  | .element tuple column => some (.element tuple column)
  | .argument index => some (.argument index)
  | .undefined => some .undefined
  | .operator op args => (args.mapM f).map (.operator op)
  | .external name args => (args.mapM f).map (.external name)
  | .pack args => (args.mapM f).map .pack
  | .autoIncrement => some .autoIncrement

def CondNode.mapOption {ε κ ε' κ' : Type} (f : ε → Option ε') (g : κ → Option κ') :
    CondNode ε κ → Option (CondNode ε' κ')
  | .true => some .true
  | .false => some .false
  | .both left right => do return .both (← g left) (← g right)
  | .not condition => do return .not (← g condition)
  | .compare op left right => do return .compare op (← f left) (← f right)
  | .holds relation values => do return .holds relation (← values.mapM f)
  | .isEmpty relation => some (.isEmpty relation)

def OpNode.mapOption {ε κ ω ε' κ' ω' : Type} (f : ε → Option ε') (g : κ → Option κ')
    (h : ω → Option ω') : OpNode ε κ ω → Option (OpNode ε' κ' ω')
  | .scan relation tuple nested => do return .scan relation tuple (← h nested)
  | .filter condition nested => do return .filter (← g condition) (← h nested)
  | .aggregate relation tuple function none condition nested => do
      return .aggregate relation tuple function none (← g condition) (← h nested)
  | .aggregate relation tuple function (some value) condition nested => do
      return .aggregate relation tuple function (some (← f value)) (← g condition) (← h nested)
  | .insert relation values => do return .insert relation (← values.mapM f)
  | .answer values => do return .answer (← values.mapM f)

def StmtNode.mapOption {κ ω σ κ' ω' σ' : Type} (g : κ → Option κ') (h : ω → Option ω')
    (k : σ → Option σ') : StmtNode κ ω σ → Option (StmtNode κ' ω' σ')
  | .sequence statements => do return .sequence (← statements.mapM k)
  | .query operation => do return .query (← h operation)
  | .loop body => do return .loop (← k body)
  | .exit condition => do return .exit (← g condition)
  | .clear relation => some (.clear relation)
  | .swap left right => some (.swap left right)
  | .merge source target => some (.merge source target)
  | .debug message statement => do return .debug message (← k statement)

namespace Arena

/-- The expression below `id`, if it is no deeper than `depth`. -/
def exprWithin? (arena : Arena) : Nat → Nat → Option Expr
  | 0, _ => none
  | depth + 1, id => do
      let node ← arena.exprs[id]?
      return .ofNode (← node.mapOption (arena.exprWithin? depth))

def exprAt? (arena : Arena) (id : Nat) : Option Expr :=
  arena.exprWithin? arena.exprs.size id

/-- The condition below `id`, if its nodes of this sort are no deeper than `depth`. -/
def condWithin? (arena : Arena) : Nat → Nat → Option Cond
  | 0, _ => none
  | depth + 1, id => do
      let node ← arena.conds[id]?
      return .ofNode (← node.mapOption arena.exprAt? (arena.condWithin? depth))

def condAt? (arena : Arena) (id : Nat) : Option Cond :=
  arena.condWithin? arena.conds.size id

/-- The operation below `id`, if its nodes of this sort are no deeper than `depth`. -/
def opWithin? (arena : Arena) : Nat → Nat → Option Op
  | 0, _ => none
  | depth + 1, id => do
      let node ← arena.ops[id]?
      return .ofNode (← node.mapOption arena.exprAt? arena.condAt? (arena.opWithin? depth))

def opAt? (arena : Arena) (id : Nat) : Option Op :=
  arena.opWithin? arena.ops.size id

/-- The statement below `id`, if its nodes of this sort are no deeper than `depth`. -/
def stmtWithin? (arena : Arena) : Nat → Nat → Option Stmt
  | 0, _ => none
  | depth + 1, id => do
      let node ← arena.stmts[id]?
      return .ofNode (← node.mapOption arena.condAt? arena.opAt? (arena.stmtWithin? depth))

def stmtAt? (arena : Arena) (id : Nat) : Option Stmt :=
  arena.stmtWithin? arena.stmts.size id

end Arena

end DatalogRam.Ram
