import DatalogRam.Proofs.Ram.Replaced
import DatalogRam.Ram.Clone

/-!
# Copies

Copying the nodes below a number lays out the tree that can be read there. Copying only adds nodes, so the children
that are still to be copied are the same as they were at the start.

A copy shares no node with what was in the arena before. So whatever a mapper puts in the place of nodes of the copy,
and whether it ends well or with an error, the original is read as before. The copy becomes what the mapper makes of
it from the root down.
-/

namespace DatalogRam.Ram

open Arena

/-! ## Copying a tree by its layers -/

theorem copyExprs_eq_mapM (exprs : List Expr) : copyExprs exprs = exprs.mapM copyExpr := by
  induction exprs with
  | nil => rfl
  | cons expr exprs ih =>
      rw [copyExprs, List.mapM_cons, ih]

theorem copyExpr_ofNode (node : ExprNode Expr) : copyExpr (.ofNode node) = node.mapM copyExpr >>= placeExpr := by
  cases node <;> simp [Expr.ofNode, ExprNode.mapM, copyExpr, copyExprs_eq_mapM]

theorem copyCond_ofNode (node : CondNode Expr Cond) :
    copyCond (.ofNode node) = node.mapM copyExpr copyCond >>= placeCond := by
  cases node <;> simp [Cond.ofNode, CondNode.mapM, copyCond, copyExprs_eq_mapM]

/-! ## Copying by numbers -/

/-- In every arena that has the nodes of the given one, the code succeeds, does the same as the plain code, and keeps
these nodes. -/
def Follows {α : Type} (base : Arena) (code : OptionT Build α) (plain : Build α) : Prop :=
  ∀ arena, arena.Extends base → code.run.run arena = (some (plain.run arena).1, (plain.run arena).2) ∧
    Extends (plain.run arena).2 base

namespace Follows

variable {α β : Type} {base : Arena} {code : OptionT Build α} {plain : Build α}

theorem pure (value : α) : Follows base (pure value) (pure value) :=
  fun _ extends' => ⟨rfl, extends'⟩

theorem bind {next : α → OptionT Build β} {rest : α → Build β} (first : Follows base code plain)
    (second : ∀ value, Follows base (next value) (rest value)) : Follows base (code >>= next) (plain >>= rest) := by
  intro arena extends'
  obtain ⟨same, kept⟩ := first arena extends'
  obtain ⟨sameRest, keptRest⟩ := second (plain.run arena).1 (plain.run arena).2 kept
  refine ⟨?_, keptRest⟩
  rw [OptionT.run_bind, Option.elimM, StateT.run_bind, same]
  exact sameRest

/-- The code may depend on the arena that it starts in. -/
theorem read {code : Arena → OptionT Build α} (each : ∀ arena, arena.Extends base → Follows base (code arena) plain) :
    Follows base (getThe Arena >>= code) plain :=
  fun arena extends' => each arena extends' arena extends'

theorem placeExpr (node : ExprNode (Placed Expr)) : Follows base (liftM (placeExpr node)) (placeExpr node) :=
  fun arena extends' => ⟨rfl, (Extends.pushExpr arena _).trans extends'⟩

theorem placeCond (node : CondNode (Placed Expr) (Placed Cond)) :
    Follows base (liftM (placeCond node)) (placeCond node) :=
  fun arena extends' => ⟨rfl, (Extends.pushCond arena _).trans extends'⟩

theorem mapM {ρ : Type} {clone : Nat → OptionT Build β} {copy : ρ → Build β} {placed : List (Placed ρ)}
    (each : ∀ child ∈ placed, Follows base (clone child.id) (copy child.tree)) :
    Follows base ((placed.map Placed.id).mapM clone) ((placed.map Placed.tree).mapM copy) := by
  induction placed with
  | nil => exact pure []
  | cons child rest ih =>
      rw [List.map_cons, List.map_cons, List.mapM_cons, List.mapM_cons]
      obtain ⟨first, others⟩ := List.forall_mem_cons.1 each
      exact first.bind fun copied => (ih others).bind fun more => pure (copied :: more)

variable {clone : Nat → OptionT Build (Placed Expr)} {cloneCond : Nat → OptionT Build (Placed Cond)}

theorem exprNode {node : ExprNode (Placed Expr)}
    (each : ∀ child ∈ node.children, Follows base (clone child.id) (copyExpr child.tree)) :
    Follows base ((node.map Placed.id).mapM clone) ((node.map Placed.tree).mapM copyExpr) := by
  cases node with
  | operator op args => exact (mapM each).bind fun copies => pure (ExprNode.operator op copies)
  | external name args => exact (mapM each).bind fun copies => pure (ExprNode.external name copies)
  | pack args => exact (mapM each).bind fun copies => pure (ExprNode.pack copies)
  | _ => exact pure _

theorem condNode {node : CondNode (Placed Expr) (Placed Cond)}
    (exprs : ∀ child ∈ node.exprs, Follows base (clone child.id) (copyExpr child.tree))
    (conds : ∀ child ∈ node.conds, Follows base (cloneCond child.id) (copyCond child.tree)) :
    Follows base ((node.map Placed.id Placed.id).mapM clone cloneCond)
      ((node.map Placed.tree Placed.tree).mapM copyExpr copyCond) := by
  cases node with
  | both left right =>
      refine (conds left (by simp [CondNode.conds])).bind fun first => ?_
      exact (conds right (by simp [CondNode.conds])).bind fun second => pure (CondNode.both first second)
  | not condition => exact (conds condition (by simp [CondNode.conds])).bind fun copy => pure (CondNode.not copy)
  | compare op left right =>
      refine (exprs left (by simp [CondNode.exprs])).bind fun first => ?_
      exact (exprs right (by simp [CondNode.exprs])).bind fun second => pure (CondNode.compare op first second)
  | holds relation values => exact (mapM exprs).bind fun copies => pure (CondNode.holds relation copies)
  | _ => exact pure _

end Follows

variable {arena : Arena} {depth id : Nat}

theorem follows_cloneExprWithin {tree : Expr} (found : arena.exprWithin? depth id = some tree) :
    Follows arena (cloneExprWithin depth id) (copyExpr tree) := by
  induction depth generalizing id tree with
  | zero => cases found
  | succ depth ih =>
      obtain ⟨node, isStored, rfl, each⟩ := exprWithin?_succ_iff.1 found
      rw [cloneExprWithin, copyExpr_ofNode]
      refine .read fun after extends' => ?_
      rw [extends'.exprs isStored]
      exact (Follows.exprNode fun child member => ih (each child member)).bind Follows.placeExpr

theorem follows_cloneExpr {tree : Expr} (found : arena.exprAt? id = some tree) :
    Follows arena (cloneExpr id) (copyExpr tree) :=
  .read fun _ extends' => follows_cloneExprWithin ((Extends.refl arena).exprWithin? (extends'.size_le .expr) found)

theorem follows_cloneCondWithin {tree : Cond} (found : arena.condWithin? depth id = some tree) :
    Follows arena (cloneCondWithin depth id) (copyCond tree) := by
  induction depth generalizing id tree with
  | zero => cases found
  | succ depth ih =>
      obtain ⟨node, isStored, rfl, exprs, conds⟩ := condWithin?_succ_iff.1 found
      rw [cloneCondWithin, copyCond_ofNode]
      refine .read fun after extends' => ?_
      rw [extends'.conds isStored]
      exact (Follows.condNode (fun child member => follows_cloneExpr (exprs child member))
        fun child member => ih (conds child member)).bind Follows.placeCond

theorem follows_cloneCond {tree : Cond} (found : arena.condAt? id = some tree) :
    Follows arena (cloneCond id) (copyCond tree) :=
  .read fun _ extends' => follows_cloneCondWithin ((Extends.refl arena).condWithin? (extends'.size_le .cond) found)

/-! ## Independence -/

namespace Arena

theorem reaches_of_mem_exprsWithin {expr : Nat} (member : expr ∈ arena.exprsWithin depth id) :
    arena.Reaches ⟨.cond, id⟩ ⟨.expr, expr⟩ := by
  induction depth generalizing id with
  | zero => exact absurd member List.not_mem_nil
  | succ depth ih =>
      cases isStored : arena.conds[id]? with
      | none =>
          rw [exprsWithin, isStored] at member
          exact absurd member List.not_mem_nil
      | some node =>
          have child {ref : NodeRef} (isChild : ref ∈ node.refs) : ref ∈ arena.children ⟨.cond, id⟩ := by
            rw [children, isStored]
            exact isChild
          rw [exprsWithin_succ isStored] at member
          rcases List.mem_append.1 member with direct | below
          · exact .single (child (List.mem_append_left _ (List.mem_map_of_mem direct)))
          · obtain ⟨inner, isInner, isBelow⟩ := List.mem_flatMap.1 below
            exact .head (child (List.mem_append_right _ (List.mem_map_of_mem isInner))) (ih isBelow)

theorem ordered_iff :
    arena.Ordered ↔
      (∀ id : Fin arena.exprs.size, ∀ child ∈ arena.exprs[id].children, child < id) ∧
        ∀ id : Fin arena.conds.size, (∀ child ∈ arena.conds[id].exprs, child < arena.exprs.size) ∧
          ∀ child ∈ arena.conds[id].conds, child < id := by
  constructor
  · exact fun ordered => ⟨fun id => ordered.expr (Array.getElem?_eq_getElem id.2),
      fun id => ordered.cond (Array.getElem?_eq_getElem id.2)⟩
  · refine fun checked => ⟨fun found => ?_, fun found => ?_⟩
    · obtain ⟨inside, rfl⟩ := Array.getElem?_eq_some_iff.1 found
      exact checked.1 ⟨_, inside⟩
    · obtain ⟨inside, rfl⟩ := Array.getElem?_eq_some_iff.1 found
      exact checked.2 ⟨_, inside⟩

instance : DecidablePred Ordered :=
  fun _ => decidable_of_iff _ ordered_iff.symm

/-- All that was in the arena is still there, and a root and what is below it are new. -/
structure HasNew (arena after : Arena) (root : NodeRef) : Prop where
  kept : after.Extends arena
  new : ∀ ref, after.Reaches root ref → arena.size ref.sort ≤ ref.id

variable {after : Arena}

theorem LaysExprs.hasNew {copy : Placed Expr} (lays : arena.LaysExprs after [copy]) :
    arena.HasNew after ⟨.expr, copy.id⟩ := by
  refine ⟨lays.kept, fun ref reaches => ?_⟩
  obtain ⟨isExpr, behind, _⟩ := lays.holds.inside_of_reaches copy List.mem_cons_self ref reaches
  rw [isExpr]
  exact behind

theorem LaysConds.hasNew {copy : Placed Cond} (lays : arena.LaysConds after [copy]) :
    arena.HasNew after ⟨.cond, copy.id⟩ := by
  obtain ⟨_, holds⟩ := lays.holds
  refine ⟨lays.kept, fun ref reaches => ?_⟩
  rcases holds.inside_of_reaches copy List.mem_cons_self ref reaches with ⟨isExpr, behind, _⟩ | ⟨isCond, behind, _⟩
  · rw [isExpr]
    exact behind
  · rw [isCond]
    exact behind

end Arena

/-- A mapper has been applied to a copy: the nodes that it replaces from the given expressions down have been replaced,
and it ended as it does on the copy. No expression outside the copy changed, and nothing that was there before the
copy. -/
structure Rewritten {ε σ : Type} (mapper : Mapper ε σ) (arena copied : Arena) (copy : NodeRef) (roots : List Nat)
    (state : σ) (ended : (Except ε Unit × σ) × Arena) : Prop where
  substituted : ∃ edits, Substitutes mapper copied roots state edits ended.1.1 ended.1.2 ∧
    ended.2 = copied.edit edits
  others : ∀ id, ¬ copied.Reaches copy ⟨.expr, id⟩ → ended.2.exprs[id]? = copied.exprs[id]?
  kept : ended.2.Extends arena

namespace Rewritten

variable {ε σ : Type} {mapper : Mapper ε σ} {arena copied : Arena} {copy : NodeRef} {roots : List Nat} {state last : σ}
  {edits : List (Nat × ExprNode Nat)} {result : Except ε Unit}

theorem of_substitutes (isNew : arena.HasNew copied copy)
    (reached : ∀ root ∈ roots, copied.Reaches copy ⟨.expr, root⟩)
    (substitutes : Substitutes mapper copied roots state edits result last) :
    Rewritten mapper arena copied copy roots state ((result, last), copied.edit edits) := by
  have inCopy (edit : Nat × ExprNode Nat) (member : edit ∈ edits) : copied.Reaches copy ⟨.expr, edit.1⟩ := by
    obtain ⟨root, isRoot, reaches⟩ := substitutes.exists_reaches edit member
    exact (reached root isRoot).trans reaches
  refine ⟨⟨edits, substitutes, rfl⟩, fun id outside => ?_, ?_⟩
  · refine Arena.getElem?_edit fun edit member same => outside ?_
    rw [← same]
    exact inCopy edit member
  · exact isNew.kept.edit fun edit member => isNew.new ⟨.expr, edit.1⟩ (inCopy edit member)

end Rewritten

theorem exists_copied_expr (ordered : arena.Ordered) (inside : id < arena.exprs.size) :
    ∃ tree copy after, arena.exprAt? id = some tree ∧ (cloneExpr id).run.run arena = (some copy, after) ∧
      copy.tree = tree ∧ arena.LaysExprs after [copy] := by
  obtain ⟨tree, isTree⟩ := Option.isSome_iff_exists.1 (ordered.isSome_exprAt? inside)
  exact ⟨tree, _, _, isTree, (follows_cloneExpr isTree arena (.refl arena)).1, builds_copyExpr tree arena,
    lays_copyExpr tree arena⟩

theorem exists_copied_cond (ordered : arena.Ordered) (inside : id < arena.conds.size) :
    ∃ tree copy after, arena.condAt? id = some tree ∧ (cloneCond id).run.run arena = (some copy, after) ∧
      copy.tree = tree ∧ arena.LaysConds after [copy] := by
  obtain ⟨tree, isTree⟩ := Option.isSome_iff_exists.1 (ordered.isSome_condAt? inside)
  exact ⟨tree, _, _, isTree, (follows_cloneCond isTree arena (.refl arena)).1, builds_copyCond tree arena,
    lays_copyCond tree arena⟩

/-- Where children come before their parents, every expression and every condition can be copied. The copy is a new
tree like the original. A mapper that is applied to the copy changes the copy only: it makes of it what it makes from
the root down, and the original can be read as before. Where the mapper does what a rule on trees does, the copy
becomes what the rule makes of the tree. -/
theorem copies_are_independent (ordered : arena.Ordered) :
    (∀ id < arena.exprs.size, ∃ tree copy after, arena.exprAt? id = some tree ∧
      (cloneExpr id).run.run arena = (some copy, after) ∧ arena.HasNew after ⟨.expr, copy.id⟩ ∧
      after.exprAt? copy.id = some tree ∧ copy.tree = tree ∧
      ∀ {ε σ : Type} (mapper : Mapper ε σ) (state : σ), ∃ ended,
        ((replaceExpr mapper.rule copy.id).run.run state).run after = ended ∧
        Rewritten mapper arena after ⟨.expr, copy.id⟩ [copy.id] state ended ∧ ended.2.exprAt? id = some tree ∧
        ∀ rule, mapper.Mirrors arena rule → ended.1.1 = (tree.replace rule).map (fun _ => ()) ∧
          ∀ changed, tree.replace rule = .ok changed → ended.2.exprAt? copy.id = some changed) ∧
    ∀ id < arena.conds.size, ∃ tree copy after, arena.condAt? id = some tree ∧
      (cloneCond id).run.run arena = (some copy, after) ∧ arena.HasNew after ⟨.cond, copy.id⟩ ∧
      after.condAt? copy.id = some tree ∧ copy.tree = tree ∧
      ∀ {ε σ : Type} (mapper : Mapper ε σ) (state : σ), ∃ ended,
        ((replaceCond mapper.rule copy.id).run.run state).run after = ended ∧
        Rewritten mapper arena after ⟨.cond, copy.id⟩ (after.exprsOfCond copy.id) state ended ∧
        ended.2.condAt? id = some tree ∧
        ∀ rule, mapper.Mirrors arena rule → ended.1.1 = (tree.replace rule).map (fun _ => ()) ∧
          ∀ changed, tree.replace rule = .ok changed → ended.2.condAt? copy.id = some changed := by
  constructor
  · intro id inside
    obtain ⟨tree, copy, after, isTree, ran, rfl, lays⟩ := exists_copied_expr ordered inside
    refine ⟨copy.tree, copy, after, isTree, ran, lays.hasNew,
      lays.holds.exprWithin? copy List.mem_cons_self _ (Nat.le_refl _), rfl, fun mapper state => ?_⟩
    obtain ⟨edits, result, last, substitutes, walked⟩ :=
      Runner.exists_substitutes_expr (Runner.follows_recording mapper) lays.holds (Nat.le_refl _) state
    have rewritten : Rewritten mapper arena after _ [copy.id] state _ :=
      .of_substitutes lays.hasNew (List.forall_mem_singleton.2 .refl) substitutes
    exact ⟨_, walked, rewritten, rewritten.kept.exprAt? isTree, fun rule mirrors =>
      substitutes.becomes_expr mirrors lays.kept (Nat.le_refl _) lays.holds (Nat.le_refl _)⟩
  · intro id inside
    obtain ⟨tree, copy, after, isTree, ran, rfl, lays⟩ := exists_copied_cond ordered inside
    obtain ⟨values, holds⟩ := lays.holds
    refine ⟨copy.tree, copy, after, isTree, ran, lays.hasNew,
      holds.condWithin? (Nat.le_refl _) copy List.mem_cons_self _ (Nat.le_refl _), rfl, fun mapper state => ?_⟩
    obtain ⟨edits, result, last, substitutes, walked⟩ := Runner.exists_substitutes_cond
      (Runner.follows_recording mapper) holds (Nat.le_refl _) (Nat.le_refl _) state
    have rewritten : Rewritten mapper arena after _ (after.exprsOfCond copy.id) state _ :=
      .of_substitutes lays.hasNew (fun root member => reaches_of_mem_exprsWithin member) substitutes
    exact ⟨_, walked, rewritten, rewritten.kept.condAt? isTree, fun rule mirrors =>
      substitutes.becomes_cond mirrors lays.kept (Nat.le_refl _) holds (Nat.le_refl _) (Nat.le_refl _)⟩

/-! ## A condition over a row -/

/-- An argument in the place of a column of a row. -/
def argumentFor {ρ : Type} : ExprNode ρ → Option (ExprNode ρ)
  | .element tuple _ => some (.argument tuple)
  | _ => none

/-- The condition that zero is less than a column of a row and one. -/
def lesser : Arena where
  exprs := #[.element 0 1, .signed 1, .operator .add [0, 1], .signed 0]
  conds := #[.compare .lt 3 2]
  ops := #[]
  stmts := #[]

/-- Replacing each read by an argument, with a count of the nodes that are offered. -/
def argumentMapper : Mapper String Nat :=
  fun node seen => (.ok (argumentFor node), seen + 1)

theorem mirrors_argumentMapper (arena : Arena) : argumentMapper.Mirrors arena fun node => .ok (argumentFor node) := by
  intro node
  refine ⟨.ok (argumentFor node), ?_, fun _ => ?_, fun replacement same => ?_⟩
  · cases node <;> rfl
  · cases node <;> rfl
  · cases node <;> cases same
    exact nofun

theorem copies_are_independent_lesser :
    lesser.Ordered ∧ ∃ copy after ended, (cloneCond 0).run.run lesser = (some copy, after) ∧ after.Extends lesser ∧
      ((replaceCond argumentMapper.rule copy.id).run.run 0).run after = ended ∧
      ended.1 = (.ok (), 4) ∧
      ended.2.condAt? copy.id = some (.compare .lt (.signed 0) (.operator .add [.argument 0, .signed 1])) ∧
      ended.2.condAt? 0 = some (.compare .lt (.signed 0) (.operator .add [.element 0 1, .signed 1])) := by
  have ordered : lesser.Ordered := by decide
  obtain ⟨tree, copy, after, isTree, ran, isNew, _, _, each⟩ := (copies_are_independent ordered).2 0 (by decide)
  cases isTree
  obtain ⟨ended, walked, _, original, becomes⟩ := each argumentMapper 0
  refine ⟨ordered, copy, after, ended, ran, isNew.kept, walked, ?_, ?_, original⟩
  · cases ran
    rw [← walked]
    rfl
  · exact (becomes _ (mirrors_argumentMapper lesser)).2 _ rfl

end DatalogRam.Ram
