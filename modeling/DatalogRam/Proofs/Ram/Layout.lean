import Mathlib.Logic.Relation
import DatalogRam.Proofs.Ram.Building
import DatalogRam.Proofs.Ram.Reading
import DatalogRam.Ram.Replace

/-!
# Layouts

Code that is written bottom up lies in an interval of the arena. The nodes below a root come before it, and what
belongs to one root comes before what belongs to the next. So no two roots share a node, what lies there can be read,
and it stays what it is as long as nothing in the interval is changed. A copy has such a layout behind everything
that was there before.
-/

namespace DatalogRam.Ram

theorem CondNode.exprs_ofNode (node : CondNode Expr Cond) :
    (Cond.ofNode node).exprs = node.exprs ++ node.conds.flatMap Cond.exprs := by
  cases node <;> simp [Cond.ofNode, Cond.exprs, CondNode.exprs, CondNode.conds]

namespace Arena

/-- The second node is the first one or below it. -/
def Reaches (arena : Arena) : NodeRef → NodeRef → Prop :=
  Relation.ReflTransGen fun parent child => child ∈ arena.children parent

/-- Expressions that lie one after another from one number on and before another one. -/
inductive Holds (arena : Arena) : Nat → List (Placed Expr) → Nat → Prop where
  | nil {first stop : Nat} (le : first ≤ stop) : Holds arena first [] stop
  | cons {first id stop : Nat} {node : ExprNode (Placed Expr)} {rest : List (Placed Expr)}
      (below : Holds arena first node.children id) (isStored : arena.exprs[id]? = some (node.map Placed.id))
      (later : Holds arena (id + 1) rest stop) :
      Holds arena first (⟨id, .ofNode (node.map Placed.tree)⟩ :: rest) stop

/-- Conditions that lie one after another, with their expressions: from a number of either sort on and before another
one. The expressions directly in the conditions are listed from left to right. -/
inductive HoldsConds (arena : Arena) : Nat → Nat → List (Placed Cond) → List (Placed Expr) → Nat → Nat → Prop where
  | nil {exprs conds lastExpr lastCond : Nat} (exprsLe : exprs ≤ lastExpr) (condsLe : conds ≤ lastCond) :
      HoldsConds arena exprs conds [] [] lastExpr lastCond
  | cons {exprs conds own inner id lastExpr lastCond : Nat} {node : CondNode (Placed Expr) (Placed Cond)}
      {rest : List (Placed Cond)} {inNode inRest : List (Placed Expr)} (direct : arena.Holds exprs node.exprs own)
      (below : HoldsConds arena own conds node.conds inNode inner id)
      (isStored : arena.conds[id]? = some (node.map Placed.id Placed.id))
      (later : HoldsConds arena inner (id + 1) rest inRest lastExpr lastCond) :
      HoldsConds arena exprs conds (⟨id, .ofNode (node.map Placed.tree Placed.tree)⟩ :: rest)
        (node.exprs ++ inNode ++ inRest) lastExpr lastCond

variable {arena middle after : Arena} {first between stop : Nat} {placed more : List (Placed Expr)}

namespace Holds

theorem le (holds : arena.Holds first placed stop) : first ≤ stop := by
  induction holds with
  | nil le => exact le
  | cons _ _ _ below later => omega

theorem earlier {start : Nat} (holds : arena.Holds first placed stop) (le : start ≤ first) :
    arena.Holds start placed stop := by
  induction holds generalizing start with
  | nil inside => exact .nil (Nat.le_trans le inside)
  | cons _ isStored later below _ => exact .cons (below le) isStored later

theorem append (holds : arena.Holds first placed between) (others : arena.Holds between more stop) :
    arena.Holds first (placed ++ more) stop := by
  induction holds with
  | nil le => exact others.earlier le
  | cons below isStored _ _ later => exact .cons below isStored (later others)

/-- A layout is a matter of the nodes in its interval. -/
theorem transfer (holds : arena.Holds first placed stop)
    (kept : ∀ id node, first ≤ id → id < stop → arena.exprs[id]? = some node → after.exprs[id]? = some node) :
    after.Holds first placed stop := by
  induction holds with
  | nil le => exact .nil le
  | cons below isStored later isBelow isLater =>
      have behind := below.le
      have before := later.le
      refine .cons (isBelow fun id node from' until' => kept id node from' (by omega)) ?_ (isLater fun id node from' =>
        kept id node (by omega))
      exact kept _ _ behind (by omega) isStored

theorem extend (holds : arena.Holds first placed stop) (extends' : after.Extends arena) :
    after.Holds first placed stop :=
  holds.transfer fun _ _ _ _ => extends'.exprs

/-- What lies in the arena can be read there. -/
theorem exprWithin? (holds : arena.Holds first placed stop) :
    ∀ root ∈ placed, ∀ depth, stop ≤ depth → arena.exprWithin? depth root.id = some root.tree := by
  induction holds with
  | nil => exact fun _ member => absurd member List.not_mem_nil
  | @cons first id stop node rest _ isStored later isBelow isLater =>
      have before := later.le
      refine List.forall_mem_cons.2 ⟨fun depth deep => ?_, isLater⟩
      obtain ⟨depth, rfl⟩ : ∃ below, depth = below + 1 := ⟨depth - 1, by omega⟩
      exact exprWithin?_succ_iff.2 ⟨node, isStored, rfl, fun child member => isBelow child member depth (by omega)⟩

/-- Nothing outside the interval is reached from the roots of a layout. -/
theorem inside_of_reaches (holds : arena.Holds first placed stop) :
    ∀ root ∈ placed, ∀ ref, arena.Reaches ⟨.expr, root.id⟩ ref → ref.sort = .expr ∧ first ≤ ref.id ∧ ref.id < stop := by
  induction holds with
  | nil => exact fun _ member => absurd member List.not_mem_nil
  | @cons first id stop node rest below isStored later isBelow isLater =>
      have behind := below.le
      have before := later.le
      refine List.forall_mem_cons.2 ⟨fun ref reaches => ?_, fun root member ref reaches => ?_⟩
      · rcases reaches.cases_head with rfl | ⟨child, isChild, reaches⟩
        · exact ⟨rfl, behind, before⟩
        · rw [Arena.children, isStored] at isChild
          obtain ⟨_, isId, rfl⟩ := List.mem_map.1 isChild
          rw [ExprNode.children_map] at isId
          obtain ⟨root, member, rfl⟩ := List.mem_map.1 isId
          obtain ⟨isExpr, from', until'⟩ := isBelow root member ref reaches
          exact ⟨isExpr, from', by omega⟩
      · obtain ⟨isExpr, from', until'⟩ := isLater root member ref reaches
        exact ⟨isExpr, by omega, until'⟩

end Holds

theorem exprsWithin_succ {depth id : Nat} {node : CondNode Nat Nat} (isStored : arena.conds[id]? = some node) :
    arena.exprsWithin (depth + 1) id = node.exprs ++ node.conds.flatMap (arena.exprsWithin depth) := by
  rw [exprsWithin, isStored]
  cases node <;> simp [CondNode.exprs, CondNode.conds]

namespace HoldsConds

variable {exprs conds lastExpr lastCond : Nat} {roots others : List (Placed Cond)} {values : List (Placed Expr)}

theorem le (holds : arena.HoldsConds exprs conds roots values lastExpr lastCond) :
    exprs ≤ lastExpr ∧ conds ≤ lastCond := by
  induction holds with
  | nil exprsLe condsLe => exact ⟨exprsLe, condsLe⟩
  | cons direct _ _ _ below later =>
      have own := direct.le
      omega

theorem earlier {expr cond : Nat} (holds : arena.HoldsConds exprs conds roots values lastExpr lastCond)
    (exprLe : expr ≤ exprs) (condLe : cond ≤ conds) : arena.HoldsConds expr cond roots values lastExpr lastCond := by
  induction holds generalizing expr cond with
  | nil exprsLe condsLe => exact .nil (Nat.le_trans exprLe exprsLe) (Nat.le_trans condLe condsLe)
  | cons direct _ isStored later below _ =>
      exact .cons (direct.earlier exprLe) (below (Nat.le_refl _) condLe) isStored later

theorem append {expr cond : Nat} (holds : arena.HoldsConds exprs conds roots values expr cond)
    (rest : arena.HoldsConds expr cond others more lastExpr lastCond) :
    arena.HoldsConds exprs conds (roots ++ others) (values ++ more) lastExpr lastCond := by
  induction holds with
  | nil exprsLe condsLe => exact rest.earlier exprsLe condsLe
  | cons direct below isStored _ _ later =>
      rw [List.append_assoc]
      exact .cons direct below isStored (later rest)

theorem extend (holds : arena.HoldsConds exprs conds roots values lastExpr lastCond) (extends' : after.Extends arena) :
    after.HoldsConds exprs conds roots values lastExpr lastCond := by
  induction holds with
  | nil exprsLe condsLe => exact .nil exprsLe condsLe
  | cons direct _ isStored _ below later => exact .cons (direct.extend extends') below (extends'.conds isStored) later

/-- The expressions directly in conditions lie one after another as well. -/
theorem holds_exprs (holds : arena.HoldsConds exprs conds roots values lastExpr lastCond) :
    arena.Holds exprs values lastExpr := by
  induction holds with
  | nil exprsLe => exact .nil exprsLe
  | cons direct _ _ _ below later => exact (direct.append below).append later

theorem trees_exprs (holds : arena.HoldsConds exprs conds roots values lastExpr lastCond) :
    values.map Placed.tree = roots.flatMap (·.tree.exprs) := by
  induction holds with
  | nil => rfl
  | cons _ _ _ _ below later =>
      simp [CondNode.exprs_ofNode, CondNode.exprs_map, CondNode.conds_map, below, later, List.flatMap_map]

theorem ids_exprs (holds : arena.HoldsConds exprs conds roots values lastExpr lastCond) :
    ∀ depth, lastCond ≤ depth → values.map Placed.id = roots.flatMap (arena.exprsWithin depth ·.id) := by
  induction holds with
  | nil => exact fun _ _ => rfl
  | @cons _ _ _ _ id _ lastCond node rest inNode inRest _ _ isStored later isBelow isLater =>
      intro depth deep
      have before := later.le
      obtain ⟨depth, rfl⟩ : ∃ below, depth = below + 1 := ⟨depth - 1, by omega⟩
      simp [exprsWithin_succ isStored, CondNode.exprs_map, CondNode.conds_map, List.flatMap_map,
        isBelow depth (by omega), isLater (depth + 1) deep]

theorem condWithin? (holds : arena.HoldsConds exprs conds roots values lastExpr lastCond)
    (inside : lastExpr ≤ arena.exprs.size) :
    ∀ root ∈ roots, ∀ depth, lastCond ≤ depth → arena.condWithin? depth root.id = some root.tree := by
  induction holds with
  | nil => exact fun _ member => absurd member List.not_mem_nil
  | cons direct below isStored later isBelow isLater =>
      have own := direct.le
      have behind := below.le
      have before := later.le
      refine List.forall_mem_cons.2 ⟨fun depth deep => ?_, isLater inside⟩
      obtain ⟨depth, rfl⟩ : ∃ below, depth = below + 1 := ⟨depth - 1, by omega⟩
      refine condWithin?_succ_iff.2 ⟨_, isStored, rfl, fun child member => ?_, fun child member => ?_⟩
      · exact direct.exprWithin? child member _ (by omega)
      · exact isBelow (by omega) child member depth (by omega)

/-- A node is one of the expressions or one of the conditions in an interval. -/
def Inside (exprs conds lastExpr lastCond : Nat) (ref : NodeRef) : Prop :=
  ref.sort = .expr ∧ exprs ≤ ref.id ∧ ref.id < lastExpr ∨ ref.sort = .cond ∧ conds ≤ ref.id ∧ ref.id < lastCond

theorem inside_of_reaches (holds : arena.HoldsConds exprs conds roots values lastExpr lastCond) :
    ∀ root ∈ roots, ∀ ref, arena.Reaches ⟨.cond, root.id⟩ ref → Inside exprs conds lastExpr lastCond ref := by
  induction holds with
  | nil => exact fun _ member => absurd member List.not_mem_nil
  | cons direct below isStored later isBelow isLater =>
      have own := direct.le
      have behind := below.le
      have before := later.le
      refine List.forall_mem_cons.2 ⟨fun ref reaches => ?_, fun root member ref reaches => ?_⟩
      · rcases reaches.cases_head with rfl | ⟨child, isChild, reaches⟩
        · exact .inr ⟨rfl, behind.2, before.2⟩
        · rw [Arena.children, isStored] at isChild
          rcases List.mem_append.1 isChild with isExpr | isCond
          · obtain ⟨_, isId, rfl⟩ := List.mem_map.1 isExpr
            rw [CondNode.exprs_map] at isId
            obtain ⟨root, member, rfl⟩ := List.mem_map.1 isId
            obtain ⟨isExpr, from', until'⟩ := direct.inside_of_reaches root member ref reaches
            exact .inl ⟨isExpr, from', by omega⟩
          · obtain ⟨_, isId, rfl⟩ := List.mem_map.1 isCond
            rw [CondNode.conds_map] at isId
            obtain ⟨root, member, rfl⟩ := List.mem_map.1 isId
            rcases isBelow root member ref reaches with ⟨isExpr, from', until'⟩ | ⟨isCond, from', until'⟩
            · exact .inl ⟨isExpr, by omega, by omega⟩
            · exact .inr ⟨isCond, from', by omega⟩
      · rcases isLater root member ref reaches with ⟨isExpr, from', until'⟩ | ⟨isCond, from', until'⟩
        · exact .inl ⟨isExpr, by omega, until'⟩
        · exact .inr ⟨isCond, by omega, until'⟩

end HoldsConds

/-! ## Writing at the end -/

/-- What was there before is kept, and the expressions lie behind it. -/
structure LaysExprs (arena after : Arena) (placed : List (Placed Expr)) : Prop where
  kept : after.Extends arena
  holds : after.Holds arena.exprs.size placed after.exprs.size

namespace LaysExprs

theorem nil (kept : after.Extends arena) : arena.LaysExprs after [] :=
  ⟨kept, .nil (kept.size_le .expr)⟩

theorem append (lays : arena.LaysExprs middle placed) (others : middle.LaysExprs after more) :
    arena.LaysExprs after (placed ++ more) :=
  ⟨others.kept.trans lays.kept, (lays.holds.extend others.kept).append others.holds⟩

/-- A node is placed behind its children. -/
theorem place (node : ExprNode (Placed Expr)) (lays : arena.LaysExprs after node.children) :
    arena.LaysExprs ((placeExpr node).run after).2 [((placeExpr node).run after).1] := by
  have kept : Extends ((placeExpr node).run after).2 after := .pushExpr after (node.map Placed.id)
  have isStored : (after.exprs.push (node.map Placed.id))[after.exprs.size]? = some (node.map Placed.id) := by simp
  refine ⟨kept.trans lays.kept, .cons (lays.holds.extend kept) isStored (.nil ?_)⟩
  exact Nat.le_of_eq (Array.size_push _).symm

theorem leaf {node : ExprNode (Placed Expr)} (isLeaf : node.children = []) :
    arena.LaysExprs ((placeExpr node).run arena).2 [((placeExpr node).run arena).1] :=
  place node (isLeaf ▸ nil (.refl arena))

end LaysExprs

structure LaysConds (arena after : Arena) (roots : List (Placed Cond)) : Prop where
  kept : after.Extends arena
  holds : ∃ values, after.HoldsConds arena.exprs.size arena.conds.size roots values after.exprs.size after.conds.size

namespace LaysConds

variable {roots others : List (Placed Cond)}

theorem nil (kept : after.Extends arena) : arena.LaysConds after [] :=
  ⟨kept, [], .nil (kept.size_le .expr) (kept.size_le .cond)⟩

theorem append (lays : arena.LaysConds middle roots) (rest : middle.LaysConds after others) :
    arena.LaysConds after (roots ++ others) := by
  obtain ⟨_, first⟩ := lays.holds
  obtain ⟨_, second⟩ := rest.holds
  exact ⟨rest.kept.trans lays.kept, _, (first.extend rest.kept).append second⟩

/-- A node is placed behind its expressions and the conditions in it. -/
theorem place (node : CondNode (Placed Expr) (Placed Cond)) (values : arena.LaysExprs middle node.exprs)
    (below : middle.LaysConds after node.conds) :
    arena.LaysConds ((placeCond node).run after).2 [((placeCond node).run after).1] := by
  have kept : Extends ((placeCond node).run after).2 after := .pushCond after (node.map Placed.id Placed.id)
  have isStored : (after.conds.push (node.map Placed.id Placed.id))[after.conds.size]? =
      some (node.map Placed.id Placed.id) := by simp
  have earlier : arena.conds.size ≤ middle.conds.size := values.kept.size_le .cond
  obtain ⟨_, inner⟩ := below.holds
  refine ⟨(kept.trans below.kept).trans values.kept, _, .cons (values.holds.extend (kept.trans below.kept))
    ((inner.extend kept).earlier (Nat.le_refl _) earlier) isStored (.nil ?_ ?_)⟩
  · exact Nat.le_refl _
  · exact Nat.le_of_eq (Array.size_push _).symm

end LaysConds

end Arena

/-! ## Copies -/

open Arena

mutual

/-- A copy lies behind everything that was there before. -/
theorem lays_copyExpr : ∀ (expr : Expr) (arena : Arena),
    arena.LaysExprs ((copyExpr expr).run arena).2 [((copyExpr expr).run arena).1]
  | .signed _, _ | .unsigned _, _ | .float _, _ | .element _ _, _ | .argument _, _ | .undefined, _
  | .autoIncrement, _ => .leaf rfl
  | .operator op args, arena => LaysExprs.place (.operator op _) (lays_copyExprs args arena)
  | .external name args, arena => LaysExprs.place (.external name _) (lays_copyExprs args arena)
  | .pack args, arena => LaysExprs.place (.pack _) (lays_copyExprs args arena)

theorem lays_copyExprs : ∀ (exprs : List Expr) (arena : Arena),
    arena.LaysExprs ((copyExprs exprs).run arena).2 ((copyExprs exprs).run arena).1
  | [], arena => .nil (.refl arena)
  | expr :: exprs, arena => (lays_copyExpr expr arena).append (lays_copyExprs exprs _)

end

theorem lays_copyCond (condition : Cond) (arena : Arena) :
    arena.LaysConds ((copyCond condition).run arena).2 [((copyCond condition).run arena).1] := by
  induction condition generalizing arena with
  | both left right isLeft isRight =>
      exact LaysConds.place (.both _ _) (.nil (.refl _)) ((isLeft arena).append (isRight _))
  | not condition isInner => exact LaysConds.place (.not _) (.nil (.refl _)) (isInner arena)
  | compare op left right =>
      have values := (lays_copyExpr left arena).append (lays_copyExpr right _)
      exact LaysConds.place (.compare op _ _) values (.nil (.refl _))
  | holds relation values =>
      exact LaysConds.place (.holds relation _) (lays_copyExprs values arena) (.nil (.refl _))
  | true | false | isEmpty => exact LaysConds.place _ (.nil (.refl _)) (.nil (.refl _))

end DatalogRam.Ram
