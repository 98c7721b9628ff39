import DatalogRam.Ram.Node

/-!
# Machine code as trees

Whole expressions, conditions, operations and statements. Each sort is the tree of its nodes, and `ofNode`
builds a tree from a node whose children are trees.
-/

namespace DatalogRam.Ram

inductive Expr where
  | signed (value : Int64)
  | unsigned (value : UInt64)
  | float (value : Binary64)
  | element (tuple column : Nat)
  | argument (index : Nat)
  | undefined
  | operator (op : Operator) (args : List Expr)
  | external (name : String) (args : List Expr)
  | pack (args : List Expr)
  | autoIncrement

inductive Cond where
  | true
  | false
  | both (left right : Cond)
  | not (condition : Cond)
  | compare (op : Comparison) (left right : Expr)
  | holds (relation : String) (values : List Expr)
  | isEmpty (relation : String)

inductive Op where
  | scan (relation : String) (tuple : Nat) (nested : Op)
  | filter (condition : Cond) (nested : Op)
  | aggregate (relation : String) (tuple : Nat) (function : Aggregation) (value : Option Expr)
      (condition : Cond) (nested : Op)
  | insert (relation : String) (values : List Expr)
  | answer (values : List Expr)

inductive Stmt where
  | sequence (statements : List Stmt)
  | query (operation : Op)
  | loop (body : Stmt)
  | exit (condition : Cond)
  | clear (relation : String)
  | swap (left right : String)
  | merge (source target : String)
  | debug (message : String) (statement : Stmt)

namespace Expr

def ofNode : ExprNode Expr → Expr
  | .signed value => signed value
  | .unsigned value => unsigned value
  | .float value => float value
  | .element tuple column => element tuple column
  | .argument index => argument index
  | .undefined => undefined
  | .operator op args => operator op args
  | .external name args => external name args
  | .pack args => pack args
  | .autoIncrement => autoIncrement

def toNode : Expr → ExprNode Expr
  | signed value => .signed value
  | unsigned value => .unsigned value
  | float value => .float value
  | element tuple column => .element tuple column
  | argument index => .argument index
  | undefined => .undefined
  | operator op args => .operator op args
  | external name args => .external name args
  | pack args => .pack args
  | autoIncrement => .autoIncrement

@[simp] theorem ofNode_toNode (expr : Expr) : ofNode expr.toNode = expr := by
  cases expr <;> rfl

@[simp] theorem toNode_ofNode (node : ExprNode Expr) : (ofNode node).toNode = node := by
  cases node <;> rfl

def isUndefined : Expr → Bool
  | undefined => true
  | _ => false

end Expr

namespace Cond

def ofNode : CondNode Expr Cond → Cond
  | .true => true
  | .false => false
  | .both left right => both left right
  | .not condition => not condition
  | .compare op left right => compare op left right
  | .holds relation values => holds relation values
  | .isEmpty relation => isEmpty relation

/-- The expressions directly in a condition, from left to right. -/
def exprs : Cond → List Expr
  | true => []
  | false => []
  | both left right => left.exprs ++ right.exprs
  | not condition => condition.exprs
  | compare _ left right => [left, right]
  | holds _ values => values
  | isEmpty _ => []

end Cond

def Op.ofNode : OpNode Expr Cond Op → Op
  | .scan relation tuple nested => .scan relation tuple nested
  | .filter condition nested => .filter condition nested
  | .aggregate relation tuple function value condition nested =>
      .aggregate relation tuple function value condition nested
  | .insert relation values => .insert relation values
  | .answer values => .answer values

def Stmt.ofNode : StmtNode Cond Op Stmt → Stmt
  | .sequence statements => .sequence statements
  | .query operation => .query operation
  | .loop body => .loop body
  | .exit condition => .exit condition
  | .clear relation => .clear relation
  | .swap left right => .swap left right
  | .merge source target => .merge source target
  | .debug message statement => .debug message statement

instance : Inhabited Expr := ⟨.undefined⟩

instance : Inhabited Cond := ⟨.true⟩

instance : Inhabited Op := ⟨.answer []⟩

instance : Inhabited Stmt := ⟨.sequence []⟩

end DatalogRam.Ram
