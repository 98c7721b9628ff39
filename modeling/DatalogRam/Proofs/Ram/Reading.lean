import DatalogRam.Proofs.Lowering.Optional
import DatalogRam.Proofs.Ram.Children
import DatalogRam.Ram.Unfold

/-!
# Reading trees from an arena

A node of an arena and the tree that it is the root of are two views of one node whose children have a number and a
tree each. Reading goes down these children. What was read stays the same when nodes are added, and in an arena whose
nodes refer to earlier ones only there is something to read at every number.
-/

namespace DatalogRam.Ram

open Lowering

/-! ## Both views of a node -/

section Views

variable {f : Nat → Option Expr} {g : Nat → Option Cond} {h : Nat → Option Op} {k : Nat → Option Stmt}

theorem mapM_eq_some_iff {τ : Type} {f : Nat → Option τ} {ids : List Nat} {trees : List τ} :
    ids.mapM f = some trees ↔
      ∃ placed : List (Placed τ), ids = placed.map Placed.id ∧ trees = placed.map Placed.tree ∧
        ∀ child ∈ placed, f child.id = some child.tree := by
  induction ids generalizing trees with
  | nil =>
      constructor
      · intro same
        cases same
        exact ⟨[], rfl, rfl, fun _ member => absurd member List.not_mem_nil⟩
      · intro ⟨placed, isIds, isTrees, _⟩
        cases List.map_eq_nil_iff.1 isIds.symm
        rw [isTrees]
        rfl
  | cons id ids ih =>
      rw [List.mapM_cons]
      constructor
      · intro same
        obtain ⟨tree, isTree, same⟩ := Option.bind_eq_some_iff.1 same
        obtain ⟨rest, areRest, same⟩ := Option.bind_eq_some_iff.1 same
        obtain ⟨placed, rfl, rfl, each⟩ := ih.1 areRest
        cases same
        exact ⟨⟨id, tree⟩ :: placed, rfl, rfl, List.forall_mem_cons.2 ⟨isTree, each⟩⟩
      · intro ⟨placed, isIds, isTrees, each⟩
        obtain ⟨first, rest, rfl, rfl, areIds⟩ := List.map_eq_cons_iff.1 isIds.symm
        have others := ih.2 ⟨rest, areIds.symm, rfl, fun child member => each child (List.mem_cons_of_mem _ member)⟩
        rw [each first List.mem_cons_self, others, isTrees]
        rfl

theorem ExprNode.mapOption_eq_some_iff {node : ExprNode Nat} {result : ExprNode Expr} :
    node.mapOption f = some result ↔
      ∃ placed : ExprNode (Placed Expr), node = placed.map Placed.id ∧ result = placed.map Placed.tree ∧
        ∀ child ∈ placed.children, f child.id = some child.tree := by
  constructor
  · intro same
    cases node with
    | operator op args =>
        obtain ⟨trees, areTrees, rfl⟩ := Option.map_eq_some_iff.1 same
        obtain ⟨placed, rfl, rfl, each⟩ := mapM_eq_some_iff.1 areTrees
        exact ⟨.operator op placed, rfl, rfl, each⟩
    | external name args =>
        obtain ⟨trees, areTrees, rfl⟩ := Option.map_eq_some_iff.1 same
        obtain ⟨placed, rfl, rfl, each⟩ := mapM_eq_some_iff.1 areTrees
        exact ⟨.external name placed, rfl, rfl, each⟩
    | pack args =>
        obtain ⟨trees, areTrees, rfl⟩ := Option.map_eq_some_iff.1 same
        obtain ⟨placed, rfl, rfl, each⟩ := mapM_eq_some_iff.1 areTrees
        exact ⟨.pack placed, rfl, rfl, each⟩
    | signed value => cases same; exact ⟨.signed value, rfl, rfl, nofun⟩
    | unsigned value => cases same; exact ⟨.unsigned value, rfl, rfl, nofun⟩
    | float value => cases same; exact ⟨.float value, rfl, rfl, nofun⟩
    | element tuple column => cases same; exact ⟨.element tuple column, rfl, rfl, nofun⟩
    | argument index => cases same; exact ⟨.argument index, rfl, rfl, nofun⟩
    | undefined => cases same; exact ⟨.undefined, rfl, rfl, nofun⟩
    | autoIncrement => cases same; exact ⟨.autoIncrement, rfl, rfl, nofun⟩
  · rintro ⟨placed, rfl, rfl, each⟩
    have args {values : List (Placed Expr)} (each : ∀ child ∈ values, f child.id = some child.tree) :
        (values.map Placed.id).mapM f = some (values.map Placed.tree) :=
      mapM_eq_some_iff.2 ⟨values, rfl, rfl, each⟩
    cases placed <;> simp_all [ExprNode.map, ExprNode.mapOption, ExprNode.children]

theorem CondNode.mapOption_eq_some_iff {node : CondNode Nat Nat} {result : CondNode Expr Cond} :
    node.mapOption f g = some result ↔
      ∃ placed : CondNode (Placed Expr) (Placed Cond), node = placed.map Placed.id Placed.id ∧
        result = placed.map Placed.tree Placed.tree ∧ (∀ child ∈ placed.exprs, f child.id = some child.tree) ∧
          ∀ child ∈ placed.conds, g child.id = some child.tree := by
  constructor
  · intro same
    cases node with
    | both left right =>
        obtain ⟨first, isFirst, same⟩ := Option.bind_eq_some_iff.1 same
        obtain ⟨second, isSecond, same⟩ := Option.bind_eq_some_iff.1 same
        cases same
        refine ⟨.both ⟨left, first⟩ ⟨right, second⟩, rfl, rfl, nofun, ?_⟩
        exact List.forall_mem_cons.2 ⟨isFirst, List.forall_mem_singleton.2 isSecond⟩
    | not condition =>
        obtain ⟨inner, isInner, same⟩ := Option.bind_eq_some_iff.1 same
        cases same
        exact ⟨.not ⟨condition, inner⟩, rfl, rfl, nofun, List.forall_mem_singleton.2 isInner⟩
    | compare op left right =>
        obtain ⟨first, isFirst, same⟩ := Option.bind_eq_some_iff.1 same
        obtain ⟨second, isSecond, same⟩ := Option.bind_eq_some_iff.1 same
        cases same
        refine ⟨.compare op ⟨left, first⟩ ⟨right, second⟩, rfl, rfl, ?_, nofun⟩
        exact List.forall_mem_cons.2 ⟨isFirst, List.forall_mem_singleton.2 isSecond⟩
    | holds relation values =>
        obtain ⟨trees, areTrees, same⟩ := Option.bind_eq_some_iff.1 same
        cases same
        obtain ⟨placed, rfl, rfl, each⟩ := mapM_eq_some_iff.1 areTrees
        exact ⟨.holds relation placed, rfl, rfl, each, nofun⟩
    | true => cases same; exact ⟨.true, rfl, rfl, nofun, nofun⟩
    | false => cases same; exact ⟨.false, rfl, rfl, nofun, nofun⟩
    | isEmpty relation => cases same; exact ⟨.isEmpty relation, rfl, rfl, nofun, nofun⟩
  · rintro ⟨placed, rfl, rfl, exprs, conds⟩
    have args {values : List (Placed Expr)} (each : ∀ child ∈ values, f child.id = some child.tree) :
        (values.map Placed.id).mapM f = some (values.map Placed.tree) :=
      mapM_eq_some_iff.2 ⟨values, rfl, rfl, each⟩
    cases placed <;> simp_all [CondNode.map, CondNode.mapOption, CondNode.exprs, CondNode.conds]

theorem OpNode.mapOption_eq_some_iff {node : OpNode Nat Nat Nat} {result : OpNode Expr Cond Op} :
    node.mapOption f g h = some result ↔
      ∃ placed : OpNode (Placed Expr) (Placed Cond) (Placed Op), node = placed.map Placed.id Placed.id Placed.id ∧
        result = placed.map Placed.tree Placed.tree Placed.tree ∧
          (∀ child ∈ placed.exprs, f child.id = some child.tree) ∧
          (∀ child ∈ placed.conds, g child.id = some child.tree) ∧
            ∀ child ∈ placed.ops, h child.id = some child.tree := by
  constructor
  · intro same
    cases node with
    | scan relation tuple nested =>
        obtain ⟨inner, isInner, same⟩ := Option.bind_eq_some_iff.1 same
        cases same
        exact ⟨.scan relation tuple ⟨nested, inner⟩, rfl, rfl, nofun, nofun, List.forall_mem_singleton.2 isInner⟩
    | filter condition nested =>
        obtain ⟨tested, isTested, same⟩ := Option.bind_eq_some_iff.1 same
        obtain ⟨inner, isInner, same⟩ := Option.bind_eq_some_iff.1 same
        cases same
        exact ⟨.filter ⟨condition, tested⟩ ⟨nested, inner⟩, rfl, rfl, nofun, List.forall_mem_singleton.2 isTested,
          List.forall_mem_singleton.2 isInner⟩
    | aggregate relation tuple function value condition nested =>
        cases value with
        | none =>
            obtain ⟨tested, isTested, same⟩ := Option.bind_eq_some_iff.1 same
            obtain ⟨inner, isInner, same⟩ := Option.bind_eq_some_iff.1 same
            cases same
            exact ⟨.aggregate relation tuple function none ⟨condition, tested⟩ ⟨nested, inner⟩, rfl, rfl, nofun,
              List.forall_mem_singleton.2 isTested, List.forall_mem_singleton.2 isInner⟩
        | some value =>
            obtain ⟨folded, isFolded, same⟩ := Option.bind_eq_some_iff.1 same
            obtain ⟨tested, isTested, same⟩ := Option.bind_eq_some_iff.1 same
            obtain ⟨inner, isInner, same⟩ := Option.bind_eq_some_iff.1 same
            cases same
            exact ⟨.aggregate relation tuple function (some ⟨value, folded⟩) ⟨condition, tested⟩ ⟨nested, inner⟩, rfl,
              rfl, List.forall_mem_singleton.2 isFolded, List.forall_mem_singleton.2 isTested,
              List.forall_mem_singleton.2 isInner⟩
    | insert relation values =>
        obtain ⟨trees, areTrees, same⟩ := Option.bind_eq_some_iff.1 same
        cases same
        obtain ⟨placed, rfl, rfl, each⟩ := mapM_eq_some_iff.1 areTrees
        exact ⟨.insert relation placed, rfl, rfl, each, nofun, nofun⟩
    | answer values =>
        obtain ⟨trees, areTrees, same⟩ := Option.bind_eq_some_iff.1 same
        cases same
        obtain ⟨placed, rfl, rfl, each⟩ := mapM_eq_some_iff.1 areTrees
        exact ⟨.answer placed, rfl, rfl, each, nofun, nofun⟩
  · rintro ⟨placed, rfl, rfl, exprs, conds, ops⟩
    have args {values : List (Placed Expr)} (each : ∀ child ∈ values, f child.id = some child.tree) :
        (values.map Placed.id).mapM f = some (values.map Placed.tree) :=
      mapM_eq_some_iff.2 ⟨values, rfl, rfl, each⟩
    cases placed with
    | aggregate relation tuple function value =>
        cases value <;> simp_all [OpNode.map, OpNode.mapOption, OpNode.exprs, OpNode.conds, OpNode.ops]
    | _ => simp_all [OpNode.map, OpNode.mapOption, OpNode.exprs, OpNode.conds, OpNode.ops]

theorem StmtNode.mapOption_eq_some_iff {node : StmtNode Nat Nat Nat} {result : StmtNode Cond Op Stmt} :
    node.mapOption g h k = some result ↔
      ∃ placed : StmtNode (Placed Cond) (Placed Op) (Placed Stmt),
        node = placed.map Placed.id Placed.id Placed.id ∧ result = placed.map Placed.tree Placed.tree Placed.tree ∧
          (∀ child ∈ placed.conds, g child.id = some child.tree) ∧
          (∀ child ∈ placed.ops, h child.id = some child.tree) ∧
            ∀ child ∈ placed.stmts, k child.id = some child.tree := by
  constructor
  · intro same
    cases node with
    | sequence statements =>
        obtain ⟨trees, areTrees, same⟩ := Option.bind_eq_some_iff.1 same
        cases same
        obtain ⟨placed, rfl, rfl, each⟩ := mapM_eq_some_iff.1 areTrees
        exact ⟨.sequence placed, rfl, rfl, nofun, nofun, each⟩
    | query operation =>
        obtain ⟨inner, isInner, same⟩ := Option.bind_eq_some_iff.1 same
        cases same
        exact ⟨.query ⟨operation, inner⟩, rfl, rfl, nofun, List.forall_mem_singleton.2 isInner, nofun⟩
    | loop body =>
        obtain ⟨inner, isInner, same⟩ := Option.bind_eq_some_iff.1 same
        cases same
        exact ⟨.loop ⟨body, inner⟩, rfl, rfl, nofun, nofun, List.forall_mem_singleton.2 isInner⟩
    | exit condition =>
        obtain ⟨tested, isTested, same⟩ := Option.bind_eq_some_iff.1 same
        cases same
        exact ⟨.exit ⟨condition, tested⟩, rfl, rfl, List.forall_mem_singleton.2 isTested, nofun, nofun⟩
    | debug message statement =>
        obtain ⟨inner, isInner, same⟩ := Option.bind_eq_some_iff.1 same
        cases same
        exact ⟨.debug message ⟨statement, inner⟩, rfl, rfl, nofun, nofun, List.forall_mem_singleton.2 isInner⟩
    | clear relation => cases same; exact ⟨.clear relation, rfl, rfl, nofun, nofun, nofun⟩
    | swap left right => cases same; exact ⟨.swap left right, rfl, rfl, nofun, nofun, nofun⟩
    | merge source target => cases same; exact ⟨.merge source target, rfl, rfl, nofun, nofun, nofun⟩
  · rintro ⟨placed, rfl, rfl, conds, ops, stmts⟩
    have all {statements : List (Placed Stmt)} (each : ∀ child ∈ statements, k child.id = some child.tree) :
        (statements.map Placed.id).mapM k = some (statements.map Placed.tree) :=
      mapM_eq_some_iff.2 ⟨statements, rfl, rfl, each⟩
    cases placed <;> simp_all [StmtNode.map, StmtNode.mapOption, StmtNode.conds, StmtNode.ops, StmtNode.stmts]

theorem ExprNode.exists_mapOption {node : ExprNode Nat} (each : ∀ child ∈ node.children, (f child).isSome) :
    ∃ result, node.mapOption f = some result := by
  have args {values : List Nat} (each : ∀ child ∈ values, (f child).isSome) : ∃ trees, values.mapM f = some trees :=
    Option.isSome_iff_exists.1 (isSome_mapM each)
  cases node with
  | operator op values | external name values | pack values =>
      obtain ⟨trees, areTrees⟩ := args each
      exact ⟨_, congrArg (Option.map _) areTrees⟩
  | _ => exact ⟨_, rfl⟩

theorem CondNode.exists_mapOption {node : CondNode Nat Nat} (exprs : ∀ child ∈ node.exprs, (f child).isSome)
    (conds : ∀ child ∈ node.conds, (g child).isSome) : ∃ result, node.mapOption f g = some result := by
  cases node with
  | both left right =>
      obtain ⟨first, isFirst⟩ := Option.isSome_iff_exists.1 (conds left (by simp [CondNode.conds]))
      obtain ⟨second, isSecond⟩ := Option.isSome_iff_exists.1 (conds right (by simp [CondNode.conds]))
      exact ⟨.both first second, by rw [mapOption, isFirst, isSecond]; rfl⟩
  | not condition =>
      obtain ⟨inner, isInner⟩ := Option.isSome_iff_exists.1 (conds condition (by simp [CondNode.conds]))
      exact ⟨.not inner, by rw [mapOption, isInner]; rfl⟩
  | compare op left right =>
      obtain ⟨first, isFirst⟩ := Option.isSome_iff_exists.1 (exprs left (by simp [CondNode.exprs]))
      obtain ⟨second, isSecond⟩ := Option.isSome_iff_exists.1 (exprs right (by simp [CondNode.exprs]))
      exact ⟨.compare op first second, by rw [mapOption, isFirst, isSecond]; rfl⟩
  | holds relation values =>
      obtain ⟨trees, areTrees⟩ : ∃ trees, values.mapM f = some trees := Option.isSome_iff_exists.1 (isSome_mapM exprs)
      exact ⟨.holds relation trees, by rw [mapOption, areTrees]; rfl⟩
  | _ => exact ⟨_, rfl⟩

end Views

namespace Arena

/-! ## One layer -/

variable {arena after : Arena} {depth limit id : Nat}

/-- What is read at a number is its node, with what is read at the children of the node. -/
theorem exprWithin?_succ_iff {expr : Expr} :
    arena.exprWithin? (depth + 1) id = some expr ↔
      ∃ node : ExprNode (Placed Expr), arena.exprs[id]? = some (node.map Placed.id) ∧
        expr = .ofNode (node.map Placed.tree) ∧
          ∀ child ∈ node.children, arena.exprWithin? depth child.id = some child.tree := by
  rw [exprWithin?]
  constructor
  · intro same
    obtain ⟨stored, isStored, same⟩ := Option.bind_eq_some_iff.1 same
    obtain ⟨layer, isLayer, same⟩ := Option.bind_eq_some_iff.1 same
    obtain ⟨node, rfl, rfl, each⟩ := ExprNode.mapOption_eq_some_iff.1 isLayer
    cases same
    exact ⟨node, isStored, rfl, each⟩
  · rintro ⟨node, isStored, rfl, each⟩
    rw [isStored]
    change (ExprNode.mapOption _ _ >>= _) = _
    rw [ExprNode.mapOption_eq_some_iff.2 ⟨node, rfl, rfl, each⟩]
    rfl

theorem condWithin?_succ_iff {cond : Cond} :
    arena.condWithin? (depth + 1) id = some cond ↔
      ∃ node : CondNode (Placed Expr) (Placed Cond), arena.conds[id]? = some (node.map Placed.id Placed.id) ∧
        cond = .ofNode (node.map Placed.tree Placed.tree) ∧
          (∀ child ∈ node.exprs, arena.exprAt? child.id = some child.tree) ∧
            ∀ child ∈ node.conds, arena.condWithin? depth child.id = some child.tree := by
  rw [condWithin?]
  constructor
  · intro same
    obtain ⟨stored, isStored, same⟩ := Option.bind_eq_some_iff.1 same
    obtain ⟨layer, isLayer, same⟩ := Option.bind_eq_some_iff.1 same
    obtain ⟨node, rfl, rfl, exprs, conds⟩ := CondNode.mapOption_eq_some_iff.1 isLayer
    cases same
    exact ⟨node, isStored, rfl, exprs, conds⟩
  · rintro ⟨node, isStored, rfl, exprs, conds⟩
    rw [isStored]
    change (CondNode.mapOption _ _ _ >>= _) = _
    rw [CondNode.mapOption_eq_some_iff.2 ⟨node, rfl, rfl, exprs, conds⟩]
    rfl

theorem opWithin?_succ_iff {op : Op} :
    arena.opWithin? (depth + 1) id = some op ↔
      ∃ node : OpNode (Placed Expr) (Placed Cond) (Placed Op),
        arena.ops[id]? = some (node.map Placed.id Placed.id Placed.id) ∧
          op = .ofNode (node.map Placed.tree Placed.tree Placed.tree) ∧
            (∀ child ∈ node.exprs, arena.exprAt? child.id = some child.tree) ∧
            (∀ child ∈ node.conds, arena.condAt? child.id = some child.tree) ∧
              ∀ child ∈ node.ops, arena.opWithin? depth child.id = some child.tree := by
  rw [opWithin?]
  constructor
  · intro same
    obtain ⟨stored, isStored, same⟩ := Option.bind_eq_some_iff.1 same
    obtain ⟨layer, isLayer, same⟩ := Option.bind_eq_some_iff.1 same
    obtain ⟨node, rfl, rfl, each⟩ := OpNode.mapOption_eq_some_iff.1 isLayer
    cases same
    exact ⟨node, isStored, rfl, each⟩
  · rintro ⟨node, isStored, rfl, each⟩
    rw [isStored]
    change (OpNode.mapOption _ _ _ _ >>= _) = _
    rw [OpNode.mapOption_eq_some_iff.2 ⟨node, rfl, rfl, each⟩]
    rfl

theorem stmtWithin?_succ_iff {stmt : Stmt} :
    arena.stmtWithin? (depth + 1) id = some stmt ↔
      ∃ node : StmtNode (Placed Cond) (Placed Op) (Placed Stmt),
        arena.stmts[id]? = some (node.map Placed.id Placed.id Placed.id) ∧
          stmt = .ofNode (node.map Placed.tree Placed.tree Placed.tree) ∧
            (∀ child ∈ node.conds, arena.condAt? child.id = some child.tree) ∧
            (∀ child ∈ node.ops, arena.opAt? child.id = some child.tree) ∧
              ∀ child ∈ node.stmts, arena.stmtWithin? depth child.id = some child.tree := by
  rw [stmtWithin?]
  constructor
  · intro same
    obtain ⟨stored, isStored, same⟩ := Option.bind_eq_some_iff.1 same
    obtain ⟨layer, isLayer, same⟩ := Option.bind_eq_some_iff.1 same
    obtain ⟨node, rfl, rfl, each⟩ := StmtNode.mapOption_eq_some_iff.1 isLayer
    cases same
    exact ⟨node, isStored, rfl, each⟩
  · rintro ⟨node, isStored, rfl, each⟩
    rw [isStored]
    change (StmtNode.mapOption _ _ _ _ >>= _) = _
    rw [StmtNode.mapOption_eq_some_iff.2 ⟨node, rfl, rfl, each⟩]
    rfl

/-! ## More nodes -/

/-- Every node of the first arena is still at its place. -/
structure Extends (after arena : Arena) : Prop where
  exprs : ∀ {id : Nat} {node}, arena.exprs[id]? = some node → after.exprs[id]? = some node
  conds : ∀ {id : Nat} {node}, arena.conds[id]? = some node → after.conds[id]? = some node
  ops : ∀ {id : Nat} {node}, arena.ops[id]? = some node → after.ops[id]? = some node
  stmts : ∀ {id : Nat} {node}, arena.stmts[id]? = some node → after.stmts[id]? = some node

theorem size_le_of_kept {ν : Type} {nodes more : Array ν}
    (kept : ∀ {id : Nat} {node}, nodes[id]? = some node → more[id]? = some node) : nodes.size ≤ more.size := by
  rcases Nat.eq_zero_or_pos nodes.size with none | some
  · omega
  · have last := kept (Array.getElem?_eq_getElem (Nat.sub_one_lt_of_lt some))
    have inside := (Array.getElem?_eq_some_iff.1 last).1
    omega

theorem kept_push {ν : Type} {nodes : Array ν} (added : ν) {id : Nat} {node : ν} (found : nodes[id]? = some node) :
    (nodes.push added)[id]? = some node := by
  rw [Array.getElem?_push, if_neg (Nat.ne_of_lt (Array.getElem?_eq_some_iff.1 found).1), found]

namespace Extends

variable {middle : Arena}

theorem refl (arena : Arena) : arena.Extends arena :=
  ⟨id, id, id, id⟩

theorem trans (second : after.Extends middle) (first : middle.Extends arena) : after.Extends arena where
  exprs := fun found => second.exprs (first.exprs found)
  conds := fun found => second.conds (first.conds found)
  ops := fun found => second.ops (first.ops found)
  stmts := fun found => second.stmts (first.stmts found)

theorem size_le (extends' : after.Extends arena) (sort : NodeSort) : arena.size sort ≤ after.size sort := by
  cases sort with
  | expr => exact size_le_of_kept extends'.exprs
  | cond => exact size_le_of_kept extends'.conds
  | op => exact size_le_of_kept extends'.ops
  | stmt => exact size_le_of_kept extends'.stmts

theorem pushExpr (arena : Arena) (node : ExprNode Nat) :
    Extends { arena with exprs := arena.exprs.push node } arena where
  exprs := kept_push node
  conds := id
  ops := id
  stmts := id

theorem pushCond (arena : Arena) (node : CondNode Nat Nat) :
    Extends { arena with conds := arena.conds.push node } arena where
  exprs := id
  conds := kept_push node
  ops := id
  stmts := id

theorem pushOp (arena : Arena) (node : OpNode Nat Nat Nat) :
    Extends { arena with ops := arena.ops.push node } arena where
  exprs := id
  conds := id
  ops := kept_push node
  stmts := id

theorem pushStmt (arena : Arena) (node : StmtNode Nat Nat Nat) :
    Extends { arena with stmts := arena.stmts.push node } arena where
  exprs := id
  conds := id
  ops := id
  stmts := kept_push node

/-- What was read is read again, also if the reading may go deeper. -/
theorem exprWithin? (extends' : after.Extends arena) (deeper : depth ≤ limit) {expr : Expr}
    (found : arena.exprWithin? depth id = some expr) : after.exprWithin? limit id = some expr := by
  induction depth generalizing limit id expr with
  | zero => cases found
  | succ depth ih =>
      obtain ⟨limit, rfl⟩ : ∃ below, limit = below + 1 := ⟨limit - 1, by omega⟩
      obtain ⟨node, isStored, isExpr, each⟩ := exprWithin?_succ_iff.1 found
      exact exprWithin?_succ_iff.2 ⟨node, extends'.exprs isStored, isExpr, fun child member =>
        ih (Nat.le_of_succ_le_succ deeper) (each child member)⟩

theorem exprAt? (extends' : after.Extends arena) {expr : Expr} (found : arena.exprAt? id = some expr) :
    after.exprAt? id = some expr :=
  extends'.exprWithin? (extends'.size_le .expr) found

theorem condWithin? (extends' : after.Extends arena) (deeper : depth ≤ limit) {cond : Cond}
    (found : arena.condWithin? depth id = some cond) : after.condWithin? limit id = some cond := by
  induction depth generalizing limit id cond with
  | zero => cases found
  | succ depth ih =>
      obtain ⟨limit, rfl⟩ : ∃ below, limit = below + 1 := ⟨limit - 1, by omega⟩
      obtain ⟨node, isStored, isCond, exprs, conds⟩ := condWithin?_succ_iff.1 found
      exact condWithin?_succ_iff.2 ⟨node, extends'.conds isStored, isCond,
        fun child member => extends'.exprAt? (exprs child member),
        fun child member => ih (Nat.le_of_succ_le_succ deeper) (conds child member)⟩

theorem condAt? (extends' : after.Extends arena) {cond : Cond} (found : arena.condAt? id = some cond) :
    after.condAt? id = some cond :=
  extends'.condWithin? (extends'.size_le .cond) found

theorem opWithin? (extends' : after.Extends arena) (deeper : depth ≤ limit) {op : Op}
    (found : arena.opWithin? depth id = some op) : after.opWithin? limit id = some op := by
  induction depth generalizing limit id op with
  | zero => cases found
  | succ depth ih =>
      obtain ⟨limit, rfl⟩ : ∃ below, limit = below + 1 := ⟨limit - 1, by omega⟩
      obtain ⟨node, isStored, isOp, exprs, conds, ops⟩ := opWithin?_succ_iff.1 found
      exact opWithin?_succ_iff.2 ⟨node, extends'.ops isStored, isOp,
        fun child member => extends'.exprAt? (exprs child member),
        fun child member => extends'.condAt? (conds child member),
        fun child member => ih (Nat.le_of_succ_le_succ deeper) (ops child member)⟩

theorem opAt? (extends' : after.Extends arena) {op : Op} (found : arena.opAt? id = some op) :
    after.opAt? id = some op :=
  extends'.opWithin? (extends'.size_le .op) found

theorem stmtWithin? (extends' : after.Extends arena) (deeper : depth ≤ limit) {stmt : Stmt}
    (found : arena.stmtWithin? depth id = some stmt) : after.stmtWithin? limit id = some stmt := by
  induction depth generalizing limit id stmt with
  | zero => cases found
  | succ depth ih =>
      obtain ⟨limit, rfl⟩ : ∃ below, limit = below + 1 := ⟨limit - 1, by omega⟩
      obtain ⟨node, isStored, isStmt, conds, ops, stmts⟩ := stmtWithin?_succ_iff.1 found
      exact stmtWithin?_succ_iff.2 ⟨node, extends'.stmts isStored, isStmt,
        fun child member => extends'.condAt? (conds child member),
        fun child member => extends'.opAt? (ops child member),
        fun child member => ih (Nat.le_of_succ_le_succ deeper) (stmts child member)⟩

theorem stmtAt? (extends' : after.Extends arena) {stmt : Stmt} (found : arena.stmtAt? id = some stmt) :
    after.stmtAt? id = some stmt :=
  extends'.stmtWithin? (extends'.size_le .stmt) found

end Extends

/-! ## A node more -/

/-- A node that is added is read with its children, if they can be read. -/
theorem exprAt?_placeExpr {node : ExprNode (Placed Expr)}
    (children : ∀ child ∈ node.children, arena.exprAt? child.id = some child.tree) :
    ((placeExpr node).run arena).2.exprAt? arena.exprs.size = some (.ofNode (node.map Placed.tree)) := by
  have extends' := Extends.pushExpr arena (node.map Placed.id)
  have size : (arena.exprs.push (node.map Placed.id)).size = arena.exprs.size + 1 := Array.size_push _
  change exprWithin? _ (arena.exprs.push (node.map Placed.id)).size _ = _
  rw [size, exprWithin?_succ_iff]
  exact ⟨node, Array.getElem?_push_size, rfl, fun child member =>
    extends'.exprWithin? (Nat.le_refl _) (children child member)⟩

theorem condAt?_placeCond {node : CondNode (Placed Expr) (Placed Cond)}
    (exprs : ∀ child ∈ node.exprs, arena.exprAt? child.id = some child.tree)
    (conds : ∀ child ∈ node.conds, arena.condAt? child.id = some child.tree) :
    ((placeCond node).run arena).2.condAt? arena.conds.size =
      some (.ofNode (node.map Placed.tree Placed.tree)) := by
  have extends' := Extends.pushCond arena (node.map Placed.id Placed.id)
  have size : (arena.conds.push (node.map Placed.id Placed.id)).size = arena.conds.size + 1 := Array.size_push _
  change condWithin? _ (arena.conds.push (node.map Placed.id Placed.id)).size _ = _
  rw [size, condWithin?_succ_iff]
  exact ⟨node, Array.getElem?_push_size, rfl, fun child member => extends'.exprAt? (exprs child member),
    fun child member => extends'.condWithin? (Nat.le_refl _) (conds child member)⟩

theorem opAt?_placeOp {node : OpNode (Placed Expr) (Placed Cond) (Placed Op)}
    (exprs : ∀ child ∈ node.exprs, arena.exprAt? child.id = some child.tree)
    (conds : ∀ child ∈ node.conds, arena.condAt? child.id = some child.tree)
    (ops : ∀ child ∈ node.ops, arena.opAt? child.id = some child.tree) :
    ((placeOp node).run arena).2.opAt? arena.ops.size =
      some (.ofNode (node.map Placed.tree Placed.tree Placed.tree)) := by
  have extends' := Extends.pushOp arena (node.map Placed.id Placed.id Placed.id)
  have size : (arena.ops.push (node.map Placed.id Placed.id Placed.id)).size = arena.ops.size + 1 := Array.size_push _
  change opWithin? _ (arena.ops.push (node.map Placed.id Placed.id Placed.id)).size _ = _
  rw [size, opWithin?_succ_iff]
  exact ⟨node, Array.getElem?_push_size, rfl, fun child member => extends'.exprAt? (exprs child member),
    fun child member => extends'.condAt? (conds child member),
    fun child member => extends'.opWithin? (Nat.le_refl _) (ops child member)⟩

theorem stmtAt?_placeStmt {node : StmtNode (Placed Cond) (Placed Op) (Placed Stmt)}
    (conds : ∀ child ∈ node.conds, arena.condAt? child.id = some child.tree)
    (ops : ∀ child ∈ node.ops, arena.opAt? child.id = some child.tree)
    (stmts : ∀ child ∈ node.stmts, arena.stmtAt? child.id = some child.tree) :
    ((placeStmt node).run arena).2.stmtAt? arena.stmts.size =
      some (.ofNode (node.map Placed.tree Placed.tree Placed.tree)) := by
  have extends' := Extends.pushStmt arena (node.map Placed.id Placed.id Placed.id)
  have size : (arena.stmts.push (node.map Placed.id Placed.id Placed.id)).size = arena.stmts.size + 1 :=
    Array.size_push _
  change stmtWithin? _ (arena.stmts.push (node.map Placed.id Placed.id Placed.id)).size _ = _
  rw [size, stmtWithin?_succ_iff]
  exact ⟨node, Array.getElem?_push_size, rfl, fun child member => extends'.condAt? (conds child member),
    fun child member => extends'.opAt? (ops child member),
    fun child member => extends'.stmtWithin? (Nat.le_refl _) (stmts child member)⟩

/-! ## Ordered arenas -/

/-- Expressions and conditions refer to earlier nodes of their own sort, and conditions to expressions that exist. -/
structure Ordered (arena : Arena) : Prop where
  expr : ∀ {id : Nat} {node}, arena.exprs[id]? = some node → ∀ child ∈ node.children, child < id
  cond : ∀ {id : Nat} {node}, arena.conds[id]? = some node →
    (∀ child ∈ node.exprs, child < arena.exprs.size) ∧ ∀ child ∈ node.conds, child < id

namespace Ordered

theorem isSome_exprWithin? (ordered : arena.Ordered) (deep : id < depth) (inside : id < arena.exprs.size) :
    (arena.exprWithin? depth id).isSome := by
  induction depth generalizing id with
  | zero => cases deep
  | succ depth ih =>
      have isStored := Array.getElem?_eq_getElem inside
      obtain ⟨layer, isLayer⟩ := ExprNode.exists_mapOption fun child member =>
        have before := ordered.expr isStored child member
        ih (show child < depth by omega) (show child < arena.exprs.size by omega)
      rw [exprWithin?, isStored]
      change (ExprNode.mapOption _ _ >>= _).isSome
      rw [isLayer]
      rfl

theorem isSome_exprAt? (ordered : arena.Ordered) (inside : id < arena.exprs.size) : (arena.exprAt? id).isSome :=
  ordered.isSome_exprWithin? inside inside

theorem isSome_condWithin? (ordered : arena.Ordered) (deep : id < depth) (inside : id < arena.conds.size) :
    (arena.condWithin? depth id).isSome := by
  induction depth generalizing id with
  | zero => cases deep
  | succ depth ih =>
      have isStored := Array.getElem?_eq_getElem inside
      obtain ⟨exprs, conds⟩ := ordered.cond isStored
      obtain ⟨layer, isLayer⟩ := CondNode.exists_mapOption
        (fun child member => ordered.isSome_exprAt? (exprs child member)) fun child member =>
          have before := conds child member
          ih (show child < depth by omega) (show child < arena.conds.size by omega)
      rw [condWithin?, isStored]
      change (CondNode.mapOption _ _ _ >>= _).isSome
      rw [isLayer]
      rfl

theorem isSome_condAt? (ordered : arena.Ordered) (inside : id < arena.conds.size) : (arena.condAt? id).isSome :=
  ordered.isSome_condWithin? inside inside

end Ordered

end Arena

end DatalogRam.Ram
