import DatalogRam.Proofs.Lowering.RedirectedReads
import DatalogRam.Proofs.Lowering.Redirecting
import DatalogRam.Proofs.Ram.Replaced

/-!
# Where the code of values lies

The code of arguments, negations and constraints lies behind everything that was in the draft before, under any
sites. So it shares no node with other code. If redirecting its reads succeeds, then what the draft holds at its
number afterwards is the redirected tree.
-/

namespace DatalogRam.Lowering

open Ram Arena

variable {sites : Sites} {draft last : Draft}

/-! ## Layouts of code -/

theorem lays_placeExpr (node : ExprNode (Placed Expr)) {value : Placed Expr} {arena : Arena}
    (lays : arena.LaysExprs draft.arena node.children)
    (ran : outcome (inArena (placeExpr node)) draft = (.ok value, last)) : arena.LaysExprs last.arena [value] := by
  cases ran
  exact .place node lays

theorem lays_leaf {node : ExprNode (Placed Expr)} {value : Placed Expr} (isLeaf : node.children = [])
    (ran : outcome (inArena (placeExpr node)) draft = (.ok value, last)) : draft.arena.LaysExprs last.arena [value] :=
  lays_placeExpr node (isLeaf ▸ .nil (.refl draft.arena)) ran

theorem lays_lowerConstant {value : Constant} {placed : Placed Expr}
    (ran : outcome (lowerConstant value) draft = (.ok placed, last)) : draft.arena.LaysExprs last.arena [placed] := by
  cases value with
  | string text =>
      obtain ⟨word, middle, encoded, ran⟩ := of_outcome_bind ran
      have same : draft.arena = middle.arena := by
        cases encoded
        rfl
      exact lays_placeExpr (.signed word) (.nil (same ▸ .refl _)) ran
  | number | unsigned | float | nil => exact lays_leaf rfl ran

theorem lays_optionalSite {found : Option Site} {error : LoweringError} {value : Placed Expr}
    (ran : outcome (match found with
      | some site => inArena (readSite site)
      | none => throw error) draft = (.ok value, last)) : draft.arena.LaysExprs last.arena [value] := by
  cases found with
  | none => cases ran
  | some site => exact lays_leaf rfl ran

mutual

theorem lays_lowerValue : ∀ (arg : Argument) {draft last : Draft} {value : Placed Expr},
    outcome (lowerValue sites arg) draft = (.ok value, last) → draft.arena.LaysExprs last.arena [value]
  | .var name, _, _, _, ran => by
      rw [lowerValue] at ran
      exact lays_optionalSite ran
  | .aggregate function target body, _, _, _, ran => by
      rw [lowerValue] at ran
      exact lays_optionalSite ran
  | .unnamed, _, _, _, ran | .counter, _, _, _, ran => by
      rw [lowerValue] at ran
      exact lays_leaf rfl ran
  | .constant value, _, _, _, ran => by
      rw [lowerValue] at ran
      exact lays_lowerConstant ran
  | .operator op args, _, _, _, ran => by
      rw [lowerValue] at ran
      obtain ⟨values, middle, first, ran⟩ := of_outcome_bind ran
      exact lays_placeExpr (.operator op values) (lays_lowerValues args first) ran
  | .external name args, _, _, _, ran => by
      rw [lowerValue] at ran
      obtain ⟨values, middle, first, ran⟩ := of_outcome_bind ran
      exact lays_placeExpr (.external name values) (lays_lowerValues args first) ran
  | .record args, _, _, _, ran => by
      rw [lowerValue] at ran
      obtain ⟨values, middle, first, ran⟩ := of_outcome_bind ran
      exact lays_placeExpr (.pack values) (lays_lowerValues args first) ran

/-- The code of arguments lies behind what was there before, one after another. -/
theorem lays_lowerValues : ∀ (args : List Argument) {draft last : Draft} {values : List (Placed Expr)},
    outcome (lowerValues sites args) draft = (.ok values, last) → draft.arena.LaysExprs last.arena values
  | [], _, _, _, ran => by
      rw [lowerValues] at ran
      cases ran
      exact .nil (.refl _)
  | arg :: args, _, _, _, ran => by
      rw [lowerValues] at ran
      obtain ⟨value, middle, first, ran⟩ := of_outcome_bind ran
      obtain ⟨values, after, others, ran⟩ := of_outcome_bind ran
      cases ran
      exact (lays_lowerValue arg first).append (lays_lowerValues args others)

end

theorem laysExprs_wildcards (count : Nat) (arena : Arena) :
    arena.LaysExprs ((wildcards count).run arena).2 ((wildcards count).run arena).1 := by
  induction count generalizing arena with
  | zero => exact .nil (.refl arena)
  | succ count ih =>
      have first : arena.LaysExprs _ [_] := LaysExprs.leaf (show ExprNode.children .undefined = [] from rfl)
      exact first.append (ih _)

/-- An existence check lies behind the values that it asks for, with the wildcards for all other columns. -/
theorem lays_placeHolds {start : Arena} {relation : String} {values : List (Placed Expr)} {auxiliary : Nat}
    {check : Placed Cond} (lays : start.LaysExprs draft.arena values)
    (ran : outcome (inArena (existenceCheck relation values auxiliary)) draft = (.ok check, last)) :
    start.LaysConds last.arena [check] := by
  have padded := lays.append (laysExprs_wildcards auxiliary draft.arena)
  cases ran
  exact LaysConds.place (.holds _ _) padded (.nil (.refl _))

/-- The condition of a negation or a constraint lies behind what was there before. -/
theorem lays_lowerConstraint {plan : Plan} {literal : Literal} {condition : Placed Cond}
    (ran : outcome (lowerConstraint plan sites literal) draft = (.ok (some condition), last)) :
    draft.arena.LaysConds last.arena [condition] := by
  cases literal with
  | positive relation args => cases ran
  | negative relation args =>
      obtain ⟨declared, start, found, ran⟩ := of_outcome_bind ran
      obtain ⟨values, middle, first, ran⟩ := of_outcome_bind ran
      have same : draft.arena = start.arena := by
        cases isDeclared : plan.requireRelation relation with
        | error error => rw [isDeclared] at found; cases found
        | ok declared => rw [isDeclared] at found; cases found; rfl
      obtain ⟨check, after, checked, ran⟩ := of_outcome_bind ran
      have below := lays_placeHolds (same ▸ lays_lowerValues args first) checked
      cases ran
      exact LaysConds.place (.not check) (.nil (.refl _)) below
  | comparison op left right =>
      obtain ⟨first, middle, isFirst, ran⟩ := of_outcome_bind ran
      obtain ⟨second, after, isSecond, ran⟩ := of_outcome_bind ran
      have values := (lays_lowerValue left isFirst).append (lays_lowerValue right isSecond)
      cases ran
      exact LaysConds.place (.compare op first second) values (.nil (.refl _))
  | truth value =>
      cases value <;> cases ran
      · exact LaysConds.place .false (.nil (.refl _)) (.nil (.refl _))
      · exact LaysConds.place .true (.nil (.refl _)) (.nil (.refl _))

/-- A literal that is no positive atom has a condition. -/
theorem exists_of_ranConstraint {plan : Plan} {literal : Literal} {found : Option (Placed Cond)}
    (noAtom : literal.positiveAtom? = none)
    (ran : outcome (lowerConstraint plan sites literal) draft = (.ok found, last)) :
    ∃ condition, found = some condition := by
  cases literal with
  | positive relation args => cases noAtom
  | negative relation args =>
      obtain ⟨declared, start, isDeclared, ran⟩ := of_outcome_bind ran
      obtain ⟨values, middle, first, ran⟩ := of_outcome_bind ran
      obtain ⟨check, after, checked, ran⟩ := of_outcome_bind ran
      cases ran
      exact ⟨_, rfl⟩
  | comparison op left right =>
      obtain ⟨first, middle, isFirst, ran⟩ := of_outcome_bind ran
      obtain ⟨second, after, isSecond, ran⟩ := of_outcome_bind ran
      cases ran
      exact ⟨_, rfl⟩
  | truth value => cases value <;> cases ran <;> exact ⟨_, rfl⟩

/-! ## Redirecting where the code lies -/

variable {slots : Slots}

/-- Redirecting as a mapper. It has no state of its own. -/
def Slots.mapper (slots : Slots) : Mapper LoweringError Unit :=
  fun node state => (slots.redirect node, state)

theorem redirect_map {ρ τ : Type} (slots : Slots) (node : ExprNode ρ) (f : ρ → τ) :
    slots.redirect (node.map f) = (slots.redirect node).map (Option.map (ExprNode.map f)) := by
  cases node with
  | element tuple column =>
      rw [ExprNode.map, Slots.redirect, Slots.redirect]
      split
      · rfl
      · split <;> rfl
  | _ => rfl

theorem mirrors_mapper (slots : Slots) (arena : Arena) : slots.mapper.Mirrors arena slots.redirect := by
  intro node
  refine ⟨slots.redirect node, redirect_map slots node _, fun _ => redirect_map slots node _, fun new answer => ?_⟩
  rcases redirect_eq_some answer with ⟨index, rfl⟩ | ⟨rfl, _⟩ <;> exact nofun

theorem follows_mapper (slots : Slots) :
    (Runner.plain LoweringError).Follows (fun node => liftExcept (slots.redirect node)) slots.mapper := by
  intro node state arena
  change (Runner.plain LoweringError).run (liftExcept (slots.redirect node)) state arena =
    ((slots.redirect node, state), arena)
  cases slots.redirect node <;> rfl

theorem run_of_plain {code : ExceptT LoweringError Build Unit} {arena after : Arena}
    {result : Except LoweringError Unit} {state last : Unit}
    (ran : (Runner.plain LoweringError).run code state arena = ((result, last), after)) :
    code.run.run arena = (result, after) :=
  Prod.ext (congrArg (·.1.1) ran) (congrArg (·.2) ran)

/-- Redirecting a value that lies behind everything in an earlier arena keeps all that was there, and ends as
redirecting its tree does. Where that succeeds, the draft then holds the redirected tree in its place. -/
theorem outcome_redirectExpr_of_lays (slots : Slots) {start : Arena} {value : Placed Expr}
    (lays : start.LaysExprs draft.arena [value]) :
    ∃ arena, outcome (slots.redirectExpr value) draft =
        ((value.tree.replace slots.redirect).map (Placed.mk value.id), { draft with arena := arena }) ∧
      arena.Extends start ∧
      ∀ tree, value.tree.replace slots.redirect = .ok tree → arena.exprAt? value.id = some tree := by
  obtain ⟨edits, result, last, substitutes, walked⟩ :=
    Runner.exists_substitutes_expr (follows_mapper slots) lays.holds (Nat.le_refl _) ()
  obtain ⟨isResult, reads⟩ := substitutes.becomes_expr (mirrors_mapper slots start) lays.kept (Nat.le_refl _) lays.holds
    (Nat.le_refl _)
  have behind := substitutes.inside_of_holds lays.holds
  refine ⟨draft.arena.edit edits, ?_, lays.kept.edit fun edit member => (behind edit member).1, reads⟩
  rw [Slots.redirectExpr, outcome_bind, outcome_tryInArena (run_of_plain walked), isResult]
  cases value.tree.replace slots.redirect <;> rfl

theorem outcome_redirectCond_of_lays (slots : Slots) {start : Arena} {condition : Placed Cond}
    (lays : start.LaysConds draft.arena [condition]) :
    ∃ arena, outcome (slots.redirectCond condition) draft =
        ((condition.tree.replace slots.redirect).map (Placed.mk condition.id), { draft with arena := arena }) ∧
      arena.Extends start ∧
      ∀ tree, condition.tree.replace slots.redirect = .ok tree → arena.condAt? condition.id = some tree := by
  obtain ⟨values, holds⟩ := lays.holds
  obtain ⟨edits, result, last, substitutes, walked⟩ :=
    Runner.exists_substitutes_cond (follows_mapper slots) holds (Nat.le_refl _) (Nat.le_refl _) ()
  obtain ⟨isResult, reads⟩ := substitutes.becomes_cond (mirrors_mapper slots start) lays.kept (Nat.le_refl _) holds
    (Nat.le_refl _) (Nat.le_refl _)
  have ids := holds.ids_exprs draft.arena.conds.size (Nat.le_refl _)
  rw [List.flatMap_singleton] at ids
  rw [exprsOfCond, ← ids] at substitutes
  have behind := substitutes.inside_of_holds holds.holds_exprs
  refine ⟨draft.arena.edit edits, ?_, lays.kept.edit fun edit member => (behind edit member).1, reads⟩
  rw [Slots.redirectCond, outcome_bind, outcome_tryInArena (run_of_plain walked), isResult]
  cases condition.tree.replace slots.redirect <;> rfl

/-- Where redirecting the tree of a value succeeds, the draft then holds the redirected tree in its place. -/
theorem exists_redirectExpr {start : Arena} {value : Placed Expr} {tree : Expr}
    (lays : start.LaysExprs draft.arena [value]) (replaced : value.tree.replace slots.redirect = .ok tree) :
    ∃ arena, outcome (slots.redirectExpr value) draft = (.ok ⟨value.id, tree⟩, { draft with arena := arena }) ∧
      arena.exprAt? value.id = some tree := by
  obtain ⟨arena, ran, _, reads⟩ := outcome_redirectExpr_of_lays slots lays
  rw [replaced] at ran
  exact ⟨arena, ran, reads tree replaced⟩

theorem exists_redirectCond {start : Arena} {condition : Placed Cond} {tree : Cond}
    (lays : start.LaysConds draft.arena [condition]) (replaced : condition.tree.replace slots.redirect = .ok tree) :
    ∃ arena, outcome (slots.redirectCond condition) draft = (.ok ⟨condition.id, tree⟩, { draft with arena := arena }) ∧
      arena.condAt? condition.id = some tree := by
  obtain ⟨arena, ran, _, reads⟩ := outcome_redirectCond_of_lays slots lays
  rw [replaced] at ran
  exact ⟨arena, ran, reads tree replaced⟩

end DatalogRam.Lowering
