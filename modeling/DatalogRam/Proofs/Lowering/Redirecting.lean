import DatalogRam.Proofs.Lowering.Frame
import DatalogRam.Proofs.Lowering.ValueWriting
import DatalogRam.Proofs.Ram.Children

/-!
# Redirecting reads in place

Code for a subroutine is written under the sites of its slots, and its reads are redirected where it lies. The walk
through the arena fails only at a row that belongs to no slot and no erased variable. Code that was written under
these sites has no such read: from some numbers on, the arena holds expressions and conditions that refer to one
another only, and all their reads have slots. So redirecting does to the tree what `Expr.replace` does, wherever the
code was written.
-/

namespace DatalogRam.Ram

/-- A node reads rows that are bound to lesser numbers only. -/
def ExprNode.ReadsBelow {ρ : Type} (limit : Nat) : ExprNode ρ → Prop
  | .element tuple _ => tuple < limit
  | _ => True

namespace Arena

/-- From some numbers on, expressions and conditions refer to one another only and read rows below a limit. -/
structure Sealed (limit exprs conds : Nat) (arena : Arena) : Prop where
  exprsWithin : exprs ≤ arena.exprs.size
  condsWithin : conds ≤ arena.conds.size
  expr : ∀ id node, exprs ≤ id → arena.exprs[id]? = some node →
    node.ReadsBelow limit ∧ ∀ child ∈ node.children, exprs ≤ child
  cond : ∀ id node, conds ≤ id → arena.conds[id]? = some node →
    (∀ child ∈ node.exprs, exprs ≤ child) ∧ ∀ child ∈ node.conds, conds ≤ child

namespace Sealed

variable {limit exprs conds id : Nat} {arena : Arena}

/-- What is written from now on has nothing to refer to yet. -/
theorem start (limit : Nat) (arena : Arena) : arena.Sealed limit arena.exprs.size arena.conds.size where
  exprsWithin := Nat.le_refl _
  condsWithin := Nat.le_refl _
  expr := fun id node after found => by
    rw [Array.getElem?_eq_none after] at found
    cases found
  cond := fun id node after found => by
    rw [Array.getElem?_eq_none after] at found
    cases found

theorem pushExpr (isSealed : arena.Sealed limit exprs conds) {node : ExprNode Nat} (reads : node.ReadsBelow limit)
    (within : ∀ child ∈ node.children, exprs ≤ child) :
    Sealed limit exprs conds { arena with exprs := arena.exprs.push node } where
  exprsWithin := by
    rw [Array.size_push]
    exact Nat.le_succ_of_le isSealed.exprsWithin
  condsWithin := isSealed.condsWithin
  expr := fun id other after found => by
    rw [Array.getElem?_push] at found
    split at found
    · cases found
      exact ⟨reads, within⟩
    · exact isSealed.expr id other after found
  cond := isSealed.cond

theorem pushCond (isSealed : arena.Sealed limit exprs conds) {node : CondNode Nat Nat}
    (refers : ∀ child ∈ node.exprs, exprs ≤ child) (within : ∀ child ∈ node.conds, conds ≤ child) :
    Sealed limit exprs conds { arena with conds := arena.conds.push node } where
  exprsWithin := isSealed.exprsWithin
  condsWithin := by
    rw [Array.size_push]
    exact Nat.le_succ_of_le isSealed.condsWithin
  expr := isSealed.expr
  cond := fun id other after found => by
    rw [Array.getElem?_push] at found
    split at found
    · cases found
      exact ⟨refers, within⟩
    · exact isSealed.cond id other after found

theorem setExpr (isSealed : arena.Sealed limit exprs conds) {node : ExprNode Nat} (reads : node.ReadsBelow limit)
    (isLeaf : node.children = []) : (arena.setExpr id node).Sealed limit exprs conds where
  exprsWithin := by
    rw [Arena.setExpr, Array.size_setIfInBounds]
    exact isSealed.exprsWithin
  condsWithin := isSealed.condsWithin
  expr := fun other found after isFound => by
    rw [Arena.setExpr, Array.getElem?_setIfInBounds] at isFound
    split at isFound
    · split at isFound
      · cases isFound
        exact ⟨reads, fun child member => by rw [isLeaf] at member; cases member⟩
      · cases isFound
    · exact isSealed.expr other found after isFound
  cond := isSealed.cond

/-- The expressions in a condition from behind the mark are from behind it too. -/
theorem le_of_mem_exprsWithin (isSealed : arena.Sealed limit exprs conds) {depth : Nat} (after : conds ≤ id) :
    ∀ expr ∈ arena.exprsWithin depth id, exprs ≤ expr := by
  induction depth generalizing id with
  | zero => exact fun _ member => absurd member List.not_mem_nil
  | succ depth ih =>
      intro expr member
      rw [Arena.exprsWithin] at member
      cases found : arena.conds[id]? with
      | none =>
          rw [found] at member
          cases member
      | some node =>
          obtain ⟨refers, within⟩ := isSealed.cond id node after found
          rw [found] at member
          cases node with
          | both left right =>
              rcases List.mem_append.1 member with inLeft | inRight
              · exact ih (within left (by simp [CondNode.conds])) expr inLeft
              · exact ih (within right (by simp [CondNode.conds])) expr inRight
          | not condition => exact ih (within condition (by simp [CondNode.conds])) expr member
          | compare op left right => exact refers expr member
          | holds relation values => exact refers expr member
          | true | false | isEmpty => cases member

end Sealed

end Arena

end DatalogRam.Ram

namespace DatalogRam.Lowering

open Ram

variable {slots : Slots} {exprs conds id : Nat}

/-! ## Walking through the arena -/

/-- How many rows there are under the sites of slots. -/
def Slots.rowCount (slots : Slots) : Nat :=
  slots.size + slots.erased.length

/-- A read of a row that has a slot or is erased is redirected, and nothing else is replaced. -/
theorem exists_redirect {node : ExprNode Nat} (reads : node.ReadsBelow slots.rowCount) :
    ∃ found, slots.redirect node = .ok found ∧
      ∀ replacement, found = some replacement →
        replacement.ReadsBelow slots.rowCount ∧ replacement.children = [] := by
  cases node with
  | element tuple column =>
      rw [Slots.redirect]
      split
      · exact ⟨_, rfl, by intro replacement same; cases same; exact ⟨trivial, rfl⟩⟩
      · next behind =>
          have isErased : tuple - slots.size < slots.erased.length := by
            have below : tuple < slots.size + slots.erased.length := reads
            omega
          rw [if_pos isErased]
          exact ⟨_, rfl, by intro replacement same; cases same; exact ⟨trivial, rfl⟩⟩
  | _ => exact ⟨none, rfl, by intro replacement same; cases same⟩

/-- In a sealed arena the code comes to its end and leaves the arena sealed. -/
def GoesThrough (slots : Slots) (exprs conds : Nat) (code : ExceptT LoweringError Build Unit) : Prop :=
  ∀ arena : Arena, arena.Sealed slots.rowCount exprs conds →
    ∃ after : Arena, code.run.run arena = (.ok (), after) ∧ after.Sealed slots.rowCount exprs conds

theorem GoesThrough.forM {code : Nat → ExceptT LoweringError Build Unit} {ids : List Nat}
    (each : ∀ id ∈ ids, GoesThrough slots exprs conds (code id)) :
    GoesThrough slots exprs conds (ids.forM code) := by
  induction ids with
  | nil => exact fun arena isSealed => ⟨arena, rfl, isSealed⟩
  | cons id ids ih =>
      intro arena isSealed
      obtain ⟨middle, first, middleSealed⟩ := each id List.mem_cons_self arena isSealed
      obtain ⟨after, rest, afterSealed⟩ := ih (fun other member => each other (List.mem_cons_of_mem _ member))
        middle middleSealed
      refine ⟨after, ?_, afterSealed⟩
      change (code id >>= fun _ => ids.forM code).run.run arena = _
      rw [run_bind, first]
      exact rest

/-- The walk redirects the node, or goes on to its children. -/
theorem run_replaceWithin (slots : Slots) (depth id : Nat) (arena : Arena) :
    (replaceWithin (fun node => liftExcept (slots.redirect node)) (depth + 1) id :
      ExceptT LoweringError Build Unit).run.run arena =
        (match arena.exprs[id]? with
          | none => pure ()
          | some node => do
              match ← liftExcept (slots.redirect node) with
              | some replacement => modifyThe Arena (·.setExpr id replacement)
              | none => node.children.forM (replaceWithin (fun node => liftExcept (slots.redirect node)) depth) :
          ExceptT LoweringError Build Unit).run.run arena :=
  rfl

/-- The walk through an expression ends well, however deep it goes. -/
theorem goesThrough_replaceWithin (depth : Nat) : ∀ id, exprs ≤ id →
    GoesThrough slots exprs conds (replaceWithin (fun node => liftExcept (slots.redirect node)) depth id) := by
  induction depth with
  | zero => exact fun _ _ arena isSealed => ⟨arena, rfl, isSealed⟩
  | succ depth ih =>
      intro id after arena isSealed
      rw [run_replaceWithin]
      cases isNode : arena.exprs[id]? with
      | none => exact ⟨arena, rfl, isSealed⟩
      | some node =>
          obtain ⟨reads, within⟩ := isSealed.expr id node after isNode
          obtain ⟨found, answered, replaces⟩ := exists_redirect reads
          simp only [answered]
          cases found with
          | none => exact GoesThrough.forM (fun child member => ih child (within child member)) arena isSealed
          | some replacement =>
              obtain ⟨reads, isLeaf⟩ := replaces replacement rfl
              exact ⟨arena.setExpr id replacement, rfl, isSealed.setExpr reads isLeaf⟩

theorem goesThrough_replaceExpr (after : exprs ≤ id) :
    GoesThrough slots exprs conds (replaceExpr (fun node => liftExcept (slots.redirect node)) id) :=
  fun arena isSealed => goesThrough_replaceWithin arena.exprs.size id after arena isSealed

theorem goesThrough_replaceCond (after : conds ≤ id) :
    GoesThrough slots exprs conds (replaceCond (fun node => liftExcept (slots.redirect node)) id) :=
  fun arena isSealed => GoesThrough.forM (fun expr member =>
    goesThrough_replaceExpr (isSealed.le_of_mem_exprsWithin after expr member)) arena isSealed

/-! ## Sites of slots -/

theorem lookup_zipIdx (names : List String) (first : Nat) (name : String) :
    ((names.zipIdx first).map fun entry => (entry.1, Site.mk entry.2 0)).lookup name =
      (names.idxOf? name).map fun position => ⟨first + position, 0⟩ := by
  induction names generalizing first with
  | nil => rfl
  | cons other names ih =>
      rw [List.zipIdx_cons, List.map_cons, List.lookup_cons, List.idxOf?_cons, ih]
      by_cases same : name = other
      · simp [same]
      · simp [beq_false_of_ne same, beq_false_of_ne (Ne.symm same), Function.comp_def, Nat.add_comm, Nat.add_left_comm]

/-- A variable is read in the row of its place among the slots and the erased variables. -/
theorem definition?_sites (slots : Slots) (name : String) :
    slots.sites.definition? name =
      ((slots.names ++ slots.erased).idxOf? name).map fun position => ⟨position, 0⟩ := by
  have occurrences : slots.sites =
      ((slots.names ++ slots.erased).zipIdx.map fun entry => (entry.1, Site.mk entry.2 0)).foldl
        (fun sites occurrence => sites.addVariable occurrence.1 occurrence.2) Sites.empty := by
    rw [List.foldl_map]
    rfl
  rw [occurrences, definition?_foldl, lookup_zipIdx]
  simp [Sites.definition?, Sites.empty]

theorem aggregates_addVariables (entries : List (String × Nat)) (sites : Sites) :
    (entries.foldl (fun sites (name, position) => sites.addVariable name ⟨position, 0⟩) sites).aggregates =
      sites.aggregates := by
  induction entries generalizing sites with
  | nil => rfl
  | cons entry rest ih => exact ih _

theorem aggregate?_sites (slots : Slots) (aggregate : Aggregate) : slots.sites.aggregate? aggregate = none := by
  rw [Sites.aggregate?, Slots.sites, aggregates_addVariables]
  rfl

theorem tuple_lt_rowCount {name : String} {site : Site} (defined : slots.sites.definition? name = some site) :
    site.tuple < slots.rowCount := by
  rw [definition?_sites, Option.map_eq_some_iff] at defined
  obtain ⟨position, isPosition, rfl⟩ := defined
  rw [List.idxOf?, List.findIdx?_eq_some_iff_getElem] at isPosition
  have inside := isPosition.1
  rw [List.length_append] at inside
  exact inside

/-! ## Writing under the sites of slots -/

/-- Code that leaves a sealed arena sealed, and whose results have a property. -/
def Lays {α : Type} (slots : Slots) (exprs conds : Nat) (holds : α → Prop) (code : Lower α) : Prop :=
  ∀ draft : Draft, draft.arena.Sealed slots.rowCount exprs conds →
    (outcome code draft).2.arena.Sealed slots.rowCount exprs conds ∧
      ∀ a, (outcome code draft).1 = .ok a → holds a

namespace Lays

variable {α β : Type} {holds : α → Prop} {also : β → Prop}

theorem pure {a : α} (isTrue : holds a) : Lays slots exprs conds holds (pure a) := by
  intro draft isSealed
  refine ⟨isSealed, fun b same => ?_⟩
  cases same
  exact isTrue

theorem throw (error : LoweringError) : Lays slots exprs conds holds (throw error) := by
  intro draft isSealed
  refine ⟨isSealed, fun b same => ?_⟩
  cases same

theorem bind {code : Lower α} {next : α → Lower β} (first : Lays slots exprs conds holds code)
    (second : ∀ a, holds a → Lays slots exprs conds also (next a)) :
    Lays slots exprs conds also (code >>= next) := by
  intro draft isSealed
  obtain ⟨after, results⟩ := first draft isSealed
  rw [outcome_bind]
  cases ran : outcome code draft with
  | mk result last =>
      rw [ran] at after results
      cases result with
      | ok a => exact second a (results a rfl) last after
      | error error => exact ⟨after, fun b same => by cases same⟩

theorem lift (result : Except LoweringError α) : Lays slots exprs conds (fun _ => True) (liftExcept result) := by
  cases result with
  | ok a => exact pure trivial
  | error error => exact throw error

theorem adapt {code : Lower α} (change : LoweringError → LoweringError) (lays : Lays slots exprs conds holds code) :
    Lays slots exprs conds holds (ExceptT.adapt change code : Lower α) := by
  intro draft isSealed
  obtain ⟨after, results⟩ := lays draft isSealed
  refine ⟨after, fun a same => results a ?_⟩
  change (outcome code draft).1.mapError change = .ok a at same
  cases ran : (outcome code draft).1 with
  | ok b =>
      rw [ran] at same
      exact same
  | error error =>
      rw [ran] at same
      cases same

theorem encodeSymbol (text : String) : Lays slots exprs conds (fun _ => True) (encodeSymbol text) :=
  fun _ isSealed => ⟨isSealed, fun _ _ => trivial⟩

theorem expr {node : ExprNode (Placed Expr)} (reads : node.ReadsBelow slots.rowCount)
    (within : ∀ child ∈ node.children, exprs ≤ child.id) :
    Lays slots exprs conds (fun placed => exprs ≤ placed.id) (inArena (placeExpr node)) := by
  intro draft isSealed
  refine ⟨isSealed.pushExpr ?_ ?_, fun placed same => ?_⟩
  · cases node <;> exact reads
  · intro child member
    rw [ExprNode.children_map] at member
    obtain ⟨placed, isPlaced, rfl⟩ := List.mem_map.1 member
    exact within placed isPlaced
  · cases same
    exact isSealed.exprsWithin

theorem leaf {node : ExprNode (Placed Expr)} (reads : node.ReadsBelow slots.rowCount) (isLeaf : node.children = []) :
    Lays slots exprs conds (fun placed => exprs ≤ placed.id) (inArena (placeExpr node)) :=
  expr reads fun child member => by simp [isLeaf] at member

theorem cond {node : CondNode (Placed Expr) (Placed Cond)} (refers : ∀ child ∈ node.exprs, exprs ≤ child.id)
    (within : ∀ child ∈ node.conds, conds ≤ child.id) :
    Lays slots exprs conds (fun placed => conds ≤ placed.id) (inArena (placeCond node)) := by
  intro draft isSealed
  refine ⟨isSealed.pushCond ?_ ?_, fun placed same => ?_⟩
  · intro child member
    rw [CondNode.exprs_map] at member
    obtain ⟨placed, isPlaced, rfl⟩ := List.mem_map.1 member
    exact refers placed isPlaced
  · intro child member
    rw [CondNode.conds_map] at member
    obtain ⟨placed, isPlaced, rfl⟩ := List.mem_map.1 member
    exact within placed isPlaced
  · cases same
    exact isSealed.condsWithin

end Lays

theorem lays_constant (value : Constant) :
    Lays slots exprs conds (fun placed => exprs ≤ placed.id) (lowerConstant value) := by
  cases value with
  | string text => exact (Lays.encodeSymbol text).bind fun _ _ => Lays.leaf trivial rfl
  | number | unsigned | float | nil => exact Lays.leaf trivial rfl

mutual

/-- The code of an argument refers to nothing that was there before. -/
theorem lays_value :
    ∀ arg : Argument, Lays slots exprs conds (fun placed => exprs ≤ placed.id) (lowerValue slots.sites arg)
  | .var name => by
      rw [lowerValue]
      cases defined : slots.sites.definition? name with
      | none => exact Lays.throw _
      | some site => exact Lays.leaf (tuple_lt_rowCount defined) rfl
  | .unnamed => by
      rw [lowerValue]
      exact Lays.leaf trivial rfl
  | .constant value => by
      rw [lowerValue]
      exact lays_constant value
  | .operator op args => by
      rw [lowerValue]
      exact (lays_values args).bind fun values within => Lays.expr trivial within
  | .external name args => by
      rw [lowerValue]
      exact (lays_values args).bind fun values within => Lays.expr trivial within
  | .aggregate function target body => by
      rw [lowerValue, aggregate?_sites]
      exact Lays.throw _
  | .record args => by
      rw [lowerValue]
      exact (lays_values args).bind fun values within => Lays.expr trivial within
  | .counter => by
      rw [lowerValue]
      exact Lays.leaf trivial rfl

theorem lays_values : ∀ args : List Argument,
    Lays slots exprs conds (fun placed => ∀ value ∈ placed, exprs ≤ value.id) (lowerValues slots.sites args)
  | [] => by
      rw [lowerValues]
      exact Lays.pure fun _ member => absurd member List.not_mem_nil
  | arg :: args => by
      rw [lowerValues]
      refine (lays_value arg).bind fun value here => (lays_values args).bind fun values within => Lays.pure ?_
      exact List.forall_mem_cons.2 ⟨here, within⟩

end

theorem lays_wildcards (count : Nat) :
    Lays slots exprs conds (fun placed => ∀ value ∈ placed, exprs ≤ value.id) (inArena (wildcards count)) := by
  induction count with
  | zero => exact Lays.pure fun _ member => absurd member List.not_mem_nil
  | succ count ih =>
      rw [wildcards, inArena_bind]
      have first : Lays slots exprs conds (fun placed => exprs ≤ placed.id) (inArena (placeExpr .undefined)) :=
        Lays.leaf trivial rfl
      refine first.bind fun first here => ?_
      rw [inArena_bind]
      exact ih.bind fun rest within => Lays.pure (List.forall_mem_cons.2 ⟨here, within⟩)

theorem lays_existenceCheck (relation : String) (auxiliary : Nat) {values : List (Placed Expr)}
    (within : ∀ value ∈ values, exprs ≤ value.id) :
    Lays slots exprs conds (fun placed => conds ≤ placed.id) (inArena (existenceCheck relation values auxiliary)) := by
  rw [existenceCheck, inArena_bind]
  refine (lays_wildcards auxiliary).bind fun padding also => Lays.cond ?_ fun _ member => absurd member List.not_mem_nil
  exact List.forall_mem_append.2 ⟨within, also⟩

theorem lays_constraint (plan : Plan) (literal : Literal) :
    Lays slots exprs conds (fun found => ∀ condition ∈ found, conds ≤ condition.id)
      (lowerConstraint plan slots.sites literal) := by
  cases literal with
  | positive relation args => exact Lays.pure fun _ member => absurd member (Option.not_mem_none _)
  | negative relation args =>
      refine (Lays.lift _).bind fun _ _ => (lays_values args).bind fun values within => ?_
      refine (lays_existenceCheck _ _ within).bind fun check here => ?_
      refine (Lays.cond (fun _ member => absurd member List.not_mem_nil) ?_).bind fun negated behind => Lays.pure ?_
      · exact List.forall_mem_singleton.2 here
      · exact fun _ same => Option.some.inj same ▸ behind
  | comparison op left right =>
      refine (lays_value left).bind fun first isFirst => (lays_value right).bind fun second isSecond => ?_
      refine (Lays.cond ?_ fun _ member => absurd member List.not_mem_nil).bind fun condition here => Lays.pure ?_
      · exact List.forall_mem_cons.2 ⟨isFirst, List.forall_mem_singleton.2 isSecond⟩
      · exact fun _ same => Option.some.inj same ▸ here
  | truth value =>
      have leaf {node : CondNode (Placed Expr) (Placed Cond)} (noExprs : node.exprs = []) (noConds : node.conds = []) :
          Lays slots exprs conds (fun found => ∀ condition ∈ found, conds ≤ condition.id)
            (inArena (placeCond node) >>= fun condition => pure (some condition)) := by
        refine (Lays.cond (by simp [noExprs]) (by simp [noConds])).bind fun condition here => Lays.pure ?_
        exact fun _ same => Option.some.inj same ▸ here
      cases value with
      | true => exact leaf rfl rfl
      | false => exact leaf rfl rfl

/-! ## Redirected code -/

/-- Redirecting in a sealed arena fails only if it fails on the tree. -/
theorem outcome_redirectExpr {value : Placed Expr} {draft : Draft}
    (isSealed : draft.arena.Sealed slots.rowCount exprs conds) (within : exprs ≤ value.id) :
    ∃ arena, outcome (slots.redirectExpr value) draft =
      ((value.tree.replace slots.redirect).map fun tree => ⟨value.id, tree⟩, { draft with arena := arena }) := by
  obtain ⟨arena, walked, _⟩ := goesThrough_replaceExpr within draft.arena isSealed
  refine ⟨arena, ?_⟩
  rw [Slots.redirectExpr, outcome_bind, outcome_tryInArena walked]
  cases value.tree.replace slots.redirect <;> rfl

theorem outcome_redirectCond {condition : Placed Cond} {draft : Draft}
    (isSealed : draft.arena.Sealed slots.rowCount exprs conds) (within : conds ≤ condition.id) :
    ∃ arena, outcome (slots.redirectCond condition) draft =
      ((condition.tree.replace slots.redirect).map fun tree => ⟨condition.id, tree⟩,
        { draft with arena := arena }) := by
  obtain ⟨arena, walked, _⟩ := goesThrough_replaceCond within draft.arena isSealed
  refine ⟨arena, ?_⟩
  rw [Slots.redirectCond, outcome_bind, outcome_tryInArena walked]
  cases condition.tree.replace slots.redirect <;> rfl

theorem keeps_redirectExpr (slots : Slots) (value : Placed Expr) : Keeps (slots.redirectExpr value) :=
  (Keeps.tryInArena _).bind fun _ => (Keeps.lift _).bind fun _ => Keeps.pure _

theorem keeps_redirectCond (slots : Slots) (condition : Placed Cond) : Keeps (slots.redirectCond condition) :=
  (Keeps.tryInArena _).bind fun _ => (Keeps.lift _).bind fun _ => Keeps.pure _

/-- An argument that was written under the sites of slots is redirected to its code over the arguments. -/
theorem writes_redirected (ordinal : String → Int64) (slots : Slots) (arg : Argument) :
    Writes ordinal Placed.tree (lowerValue slots.sites arg >>= slots.redirectExpr)
      (redirectedCode ordinal slots arg) := by
  refine (writes_value slots.sites arg).bindReached (keeps_redirectExpr slots) fun start value after ran agrees => ?_
  obtain ⟨isSealed, within⟩ := lays_value arg start (Arena.Sealed.start slots.rowCount start.arena)
  rw [ran] at isSealed within
  obtain ⟨arena, redirected⟩ := outcome_redirectExpr isSealed (within value rfl)
  rw [redirected]
  cases value.tree.replace slots.redirect <;> rfl

end DatalogRam.Lowering
