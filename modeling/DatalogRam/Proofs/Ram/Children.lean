import DatalogRam.Ram.Arena

/-!
# Children in an arena

A node of an arena is known by its sort and its number, and the nodes that it refers to are its children. A node that
is added gets the next number of its sort, and the children of all others stay what they are.
-/

namespace DatalogRam.Ram

/-! ## Children of each sort -/

@[simp] theorem ExprNode.children_map {ρ τ : Type} (node : ExprNode ρ) (f : ρ → τ) :
    (node.map f).children = node.children.map f := by
  cases node <;> rfl

namespace CondNode

variable {ε κ ε' κ' : Type}

def exprs : CondNode ε κ → List ε
  | compare _ left right => [left, right]
  | holds _ values => values
  | _ => []

def conds : CondNode ε κ → List κ
  | both left right => [left, right]
  | not condition => [condition]
  | _ => []

theorem exprs_map (node : CondNode ε κ) (f : ε → ε') (g : κ → κ') : (node.map f g).exprs = node.exprs.map f := by
  cases node <;> rfl

theorem conds_map (node : CondNode ε κ) (f : ε → ε') (g : κ → κ') : (node.map f g).conds = node.conds.map g := by
  cases node <;> rfl

end CondNode

namespace OpNode

variable {ε κ ω ε' κ' ω' : Type}

def exprs : OpNode ε κ ω → List ε
  | aggregate _ _ _ value _ _ => value.toList
  | insert _ values => values
  | answer values => values
  | _ => []

def conds : OpNode ε κ ω → List κ
  | filter condition _ => [condition]
  | aggregate _ _ _ _ condition _ => [condition]
  | _ => []

def ops : OpNode ε κ ω → List ω
  | scan _ _ nested => [nested]
  | filter _ nested => [nested]
  | aggregate _ _ _ _ _ nested => [nested]
  | _ => []

variable (node : OpNode ε κ ω) (f : ε → ε') (g : κ → κ') (h : ω → ω')

theorem exprs_map : (node.map f g h).exprs = node.exprs.map f := by
  cases node with
  | aggregate _ _ _ value => cases value <;> rfl
  | _ => rfl

theorem conds_map : (node.map f g h).conds = node.conds.map g := by
  cases node <;> rfl

theorem ops_map : (node.map f g h).ops = node.ops.map h := by
  cases node <;> rfl

end OpNode

namespace StmtNode

variable {κ ω σ κ' ω' σ' : Type}

def conds : StmtNode κ ω σ → List κ
  | exit condition => [condition]
  | _ => []

def ops : StmtNode κ ω σ → List ω
  | query operation => [operation]
  | _ => []

def stmts : StmtNode κ ω σ → List σ
  | sequence statements => statements
  | loop body => [body]
  | debug _ statement => [statement]
  | _ => []

variable (node : StmtNode κ ω σ) (g : κ → κ') (h : ω → ω') (k : σ → σ')

theorem conds_map : (node.map g h k).conds = node.conds.map g := by
  cases node <;> rfl

theorem ops_map : (node.map g h k).ops = node.ops.map h := by
  cases node <;> rfl

theorem stmts_map : (node.map g h k).stmts = node.stmts.map k := by
  cases node <;> rfl

end StmtNode

/-! ## References -/

inductive NodeSort where
  | expr
  | cond
  | op
  | stmt
  deriving DecidableEq, Repr

/-- A node of an arena. -/
structure NodeRef where
  sort : NodeSort
  id : Nat
  deriving DecidableEq, Repr

def ExprNode.refs (node : ExprNode Nat) : List NodeRef :=
  node.children.map (.mk .expr)

def CondNode.refs (node : CondNode Nat Nat) : List NodeRef :=
  node.exprs.map (.mk .expr) ++ node.conds.map (.mk .cond)

def OpNode.refs (node : OpNode Nat Nat Nat) : List NodeRef :=
  node.exprs.map (.mk .expr) ++ node.conds.map (.mk .cond) ++ node.ops.map (.mk .op)

def StmtNode.refs (node : StmtNode Nat Nat Nat) : List NodeRef :=
  node.conds.map (.mk .cond) ++ node.ops.map (.mk .op) ++ node.stmts.map (.mk .stmt)

namespace Arena

/-- How many nodes of a sort there are. -/
def size (arena : Arena) : NodeSort → Nat
  | .expr => arena.exprs.size
  | .cond => arena.conds.size
  | .op => arena.ops.size
  | .stmt => arena.stmts.size

/-- The nodes that a node refers to. There are none if the arena does not have the node. -/
def children (arena : Arena) : NodeRef → List NodeRef
  | ⟨.expr, id⟩ => (arena.exprs[id]?.map ExprNode.refs).getD []
  | ⟨.cond, id⟩ => (arena.conds[id]?.map CondNode.refs).getD []
  | ⟨.op, id⟩ => (arena.ops[id]?.map OpNode.refs).getD []
  | ⟨.stmt, id⟩ => (arena.stmts[id]?.map StmtNode.refs).getD []

/-- After one node more of a sort, with given children. -/
structure Adds (arena after : Arena) (sort : NodeSort) (added : List NodeRef) : Prop where
  size : ∀ other, after.size other = if other = sort then arena.size sort + 1 else arena.size other
  children : ∀ ref, after.children ref = if ref = ⟨sort, arena.size sort⟩ then added else arena.children ref

theorem getD_push {ν : Type} (nodes : Array ν) (refs : ν → List NodeRef) (node : ν) (id : Nat) :
    ((nodes.push node)[id]?.map refs).getD [] =
      if id = nodes.size then refs node else (nodes[id]?.map refs).getD [] := by
  rw [Array.getElem?_push]
  split <;> rfl

variable (arena : Arena)

theorem adds_expr (node : ExprNode Nat) :
    arena.Adds { arena with exprs := arena.exprs.push node } .expr node.refs where
  size := by rintro (_ | _ | _ | _) <;> simp [size]
  children := by rintro ⟨_ | _ | _ | _, id⟩ <;> simp [children, size, getD_push]

theorem adds_cond (node : CondNode Nat Nat) :
    arena.Adds { arena with conds := arena.conds.push node } .cond node.refs where
  size := by rintro (_ | _ | _ | _) <;> simp [size]
  children := by rintro ⟨_ | _ | _ | _, id⟩ <;> simp [children, size, getD_push]

theorem adds_op (node : OpNode Nat Nat Nat) :
    arena.Adds { arena with ops := arena.ops.push node } .op node.refs where
  size := by rintro (_ | _ | _ | _) <;> simp [size]
  children := by rintro ⟨_ | _ | _ | _, id⟩ <;> simp [children, size, getD_push]

theorem adds_stmt (node : StmtNode Nat Nat Nat) :
    arena.Adds { arena with stmts := arena.stmts.push node } .stmt node.refs where
  size := by rintro (_ | _ | _ | _) <;> simp [size]
  children := by rintro ⟨_ | _ | _ | _, id⟩ <;> simp [children, size, getD_push]

/-- Two arenas with as many nodes of each sort and with the same references between them. -/
structure SameShape (arena after : Arena) : Prop where
  size : after.size = arena.size
  children : after.children = arena.children

namespace SameShape

variable {arena middle after : Arena}

theorem refl (arena : Arena) : arena.SameShape arena :=
  ⟨rfl, rfl⟩

theorem trans (first : arena.SameShape middle) (second : middle.SameShape after) : arena.SameShape after :=
  ⟨second.size.trans first.size, second.children.trans first.children⟩

/-- Putting a leaf in the place of a leaf changes no reference. -/
theorem setExpr {id : Nat} {node replacement : ExprNode Nat} (isNode : arena.exprs[id]? = some node)
    (isLeaf : node.children = []) (alsoLeaf : replacement.children = []) :
    arena.SameShape (arena.setExpr id replacement) where
  size := by
    funext sort
    cases sort <;> simp [Arena.size, Arena.setExpr]
  children := by
    funext ⟨sort, other⟩
    cases sort with
    | expr =>
        simp only [Arena.children, Arena.setExpr, Array.getElem?_setIfInBounds]
        split
        · next same =>
            subst same
            obtain ⟨inside, rfl⟩ := Array.getElem?_eq_some_iff.1 isNode
            simp [inside, ExprNode.refs, isLeaf, alsoLeaf]
        · rfl
    | cond | op | stmt => rfl

end SameShape

end Arena

end DatalogRam.Ram
