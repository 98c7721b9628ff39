import DatalogRam.Proofs.Lowering.Planting
import DatalogRam.Proofs.Lowering.QueryWriting
import DatalogRam.Proofs.Lowering.ValueLayout

/-!
# Queries are planted

The lowering of values, conditions and clauses takes no roots, or those of the code that it is given to wrap. Where code
is needed twice, it is copied or written anew. Redirecting puts leaves in the place of leaves, and only in code that was
just written: all other trees are shown as they were.
-/

namespace DatalogRam.Lowering

open Ram

variable {plan : Plan} {slots : Slots}

/-! ## Values and conditions -/

theorem plants_constant (value : Constant) : Plants 0 (lowerConstant value) := by
  cases value with
  | string text => exact Plants.after (Still.encodeSymbol text) fun ordinal => plants_expr (.signed ordinal) rfl
  | number | unsigned | float | nil => exact plants_expr _ rfl

mutual

theorem plants_value (sites : Sites) : ∀ arg : Argument, Plants 0 (lowerValue sites arg)
  | .var name => by
      rw [lowerValue]
      cases sites.definition? name with
      | none => exact Plants.throw _
      | some site => exact plants_expr _ rfl
  | .unnamed => by
      rw [lowerValue]
      exact plants_expr _ rfl
  | .constant value => by
      rw [lowerValue]
      exact plants_constant value
  | .operator op args => by
      rw [lowerValue]
      exact (plants_values sites args).feed fun values => plants_expr (.operator op values) rfl
  | .external name args => by
      rw [lowerValue]
      exact (plants_values sites args).feed fun values => plants_expr (.external name values) rfl
  | .aggregate function target body => by
      rw [lowerValue]
      cases sites.aggregate? ⟨function, target, body⟩ with
      | none => exact Plants.throw _
      | some site => exact plants_expr _ rfl
  | .record args => by
      rw [lowerValue]
      exact (plants_values sites args).feed fun values => plants_expr (.pack values) rfl
  | .counter => by
      rw [lowerValue]
      exact plants_expr _ rfl

theorem plants_values (sites : Sites) : ∀ args : List Argument, Plants 0 (lowerValues sites args)
  | [] => by
      rw [lowerValues]
      exact Plants.pure rfl
  | arg :: args => by
      rw [lowerValues]
      apply (plants_value sites arg).fresh
      intro value
      apply (plants_values sites args).fresh
      intro values
      exact Plants.pure (by simp [add_comm])

end

theorem plants_wildcards (count : Nat) : Plants 0 (inArena (wildcards count)) := by
  induction count with
  | zero => exact Plants.pure rfl
  | succ count ih =>
      rw [wildcards, inArena_bind]
      apply (plants_expr .undefined rfl).fresh
      intro first
      rw [inArena_bind]
      apply ih.fresh
      intro rest
      exact Plants.pure (by simp [add_comm])

theorem plants_existenceCheck (relation : String) (values : List (Placed Expr)) (auxiliary : Nat) :
    Plants (roots values) (inArena (existenceCheck relation values auxiliary)) := by
  rw [existenceCheck, inArena_bind]
  apply (plants_wildcards auxiliary).fresh
  intro padding
  exact (plants_holds relation (values ++ padding)).of_eq (by simp [add_comm])

theorem plants_constraint (sites : Sites) (literal : Literal) : Plants 0 (lowerConstraint plan sites literal) := by
  have leaf (node : CondNode (Placed Expr) (Placed Cond)) (noChildren : 0 = roots node.exprs + roots node.conds) :
      Plants 0 (do return some (← inArena (placeCond node))) :=
    (plants_cond node noChildren).feed fun condition => Plants.pure rfl
  cases literal with
  | positive relation args => exact Plants.pure rfl
  | negative relation args =>
      apply Plants.after (Still.lift _)
      intro _
      apply (plants_values sites args).feed
      intro values
      apply (plants_existenceCheck relation.text values plan.auxiliary).feed
      intro check
      apply (plants_negation check).feed
      intro negated
      exact Plants.pure rfl
  | comparison op left right =>
      apply (plants_value sites left).fresh
      intro first
      apply (plants_value sites right).fresh
      intro second
      apply ((plants_compare op first second).of_eq (by simp [add_comm])).feed
      intro condition
      exact Plants.pure rfl
  | truth value =>
      cases value with
      | true => exact leaf .true rfl
      | false => exact leaf .false rfl

/-! ## Redirecting -/

/-- Only reads are replaced, and what replaces them has no children either. -/
theorem leaves_of_redirect {node replacement : ExprNode Nat} (redirected : slots.redirect node = .ok (some replacement)) :
    node.children = [] ∧ replacement.children = [] := by
  cases node with
  | element tuple column =>
      rw [Slots.redirect] at redirected
      split at redirected
      · cases redirected
        exact ⟨rfl, rfl⟩
      · split at redirected <;> cases redirected
        exact ⟨rfl, rfl⟩
  | _ => cases redirected

theorem sameShape_forM {code : Nat → ExceptT LoweringError Build Unit} (ids : List Nat)
    (each : ∀ id, ∀ arena : Arena, arena.SameShape ((code id).run.run arena).2) (arena : Arena) :
    arena.SameShape ((ids.forM code).run.run arena).2 := by
  induction ids generalizing arena with
  | nil => exact .refl arena
  | cons id ids ih =>
      have first := each id arena
      change arena.SameShape ((code id >>= fun _ => ids.forM code).run.run arena).2
      rw [run_bind]
      cases ran : (code id).run.run arena with
      | mk result after =>
          rw [ran] at first
          cases result with
          | ok _ => exact first.trans (ih after)
          | error error => exact first

/-- The walk through an expression changes no reference, wherever it ends. -/
theorem sameShape_replaceWithin (slots : Slots) (depth id : Nat) (arena : Arena) :
    arena.SameShape ((replaceWithin (fun node => liftExcept (slots.redirect node)) depth id :
      ExceptT LoweringError Build Unit).run.run arena).2 := by
  induction depth generalizing id arena with
  | zero => exact .refl arena
  | succ depth ih =>
      rw [run_replaceWithin]
      cases isNode : arena.exprs[id]? with
      | none => exact .refl arena
      | some node =>
          cases redirected : slots.redirect node with
          | error error =>
              simp only [redirected]
              exact .refl arena
          | ok found =>
              simp only [redirected]
              cases found with
              | none => exact sameShape_forM node.children ih arena
              | some replacement =>
                  obtain ⟨isLeaf, alsoLeaf⟩ := leaves_of_redirect redirected
                  exact .setExpr isNode isLeaf alsoLeaf

theorem sameShape_tryInArena {α β : Type} {build : ExceptT LoweringError Build α} {next : α → Lower β}
    (keeps : ∀ arena : Arena, arena.SameShape (build.run.run arena).2) (still : ∀ a, Still (next a)) (draft : Draft) :
    draft.arena.SameShape (outcome (tryInArena build >>= next) draft).2.arena := by
  refine @related_bind _ _ (fun draft last => draft.arena.SameShape last.arena) _ _ (fun before after => before.trans after)
    (fun draft => ?_) (fun a draft => ?_) draft
  · rw [outcome_tryInArena (rfl : build.run.run draft.arena = (_, _))]
    exact keeps draft.arena
  · rw [(still a draft).1]
    exact .refl draft.arena

theorem sameShape_redirectExpr (slots : Slots) (value : Placed Expr) (draft : Draft) :
    draft.arena.SameShape (outcome (slots.redirectExpr value) draft).2.arena :=
  sameShape_tryInArena (fun arena => sameShape_replaceWithin slots arena.exprs.size value.id arena)
    (fun _ => (Still.lift _).bind fun _ => Still.pure _) draft

theorem sameShape_redirectCond (slots : Slots) (condition : Placed Cond) (draft : Draft) :
    draft.arena.SameShape (outcome (slots.redirectCond condition) draft).2.arena :=
  sameShape_tryInArena (fun arena => sameShape_forM (arena.exprsOfCond condition.id)
    (fun id arena => sameShape_replaceWithin slots arena.exprs.size id arena) arena)
    (fun _ => (Still.lift _).bind fun _ => Still.pure _) draft

/-- An argument is written and then redirected where it is. -/
theorem plants_redirectedValue (sites : Sites) (slots : Slots) (arg : Argument) :
    Plants 0 (lowerValue sites arg >>= slots.redirectExpr) := by
  apply (plants_value sites arg).rewrite (@writes_value (fun _ => 0) sites arg).toRetains
  intro draft written value ran
  obtain ⟨arena, redirected, keeps, reads⟩ := outcome_redirectExpr_of_lays slots (lays_lowerValue arg ran)
  have sameShape := sameShape_redirectExpr slots value written
  rw [redirected] at sameShape
  refine ⟨_, arena, redirected, sameShape, keeps, fun wanted same => ?_⟩
  cases replaced : value.tree.replace slots.redirect with
  | error error =>
      rw [replaced] at same
      cases same
  | ok tree =>
      rw [replaced] at same
      cases same
      exact ⟨rfl, fun root member => Multiset.mem_singleton.1 member ▸ reads tree replaced⟩

/-! ## Clauses -/

theorem plants_insertUnder (relation : String) (values : List (Placed Expr)) (guard : Option (Placed Cond)) :
    Plants (roots guard + roots values) (inArena (insertUnder relation values guard)) := by
  rw [insertUnder, inArena_bind, add_comm]
  apply (plants_op (.insert relation values) (by simp [OpNode.exprs, OpNode.conds, OpNode.ops])).bind
  intro insertion
  cases guard with
  | none => exact Plants.pure (by simp)
  | some condition => exact (plants_filter condition insertion).of_eq (add_comm _ _)

/-- The guard of an insertion compares copies of the values that are inserted. -/
theorem plants_insertGuarded (head : Atom) (logical auxiliary : List (Placed Expr)) (incremental : Bool) :
    Plants (roots logical + roots auxiliary) (inArena (insertGuarded plan head logical auxiliary incremental)) := by
  rw [insertGuarded, ← roots_append]
  split
  · rw [inArena_bind]
    apply (plants_copyExprs (logical.map Placed.tree)).fresh
    intro copies
    rw [inArena_bind]
    apply (plants_existenceCheck head.relation.text copies plan.auxiliary).bind
    intro check
    rw [inArena_bind]
    apply (plants_negation check).bind
    intro negated
    exact plants_insertUnder _ (logical ++ auxiliary) (some negated)
  · split
    · rw [inArena_bind]
      apply (plants_cond (.isEmpty head.relation.text) rfl).fresh
      intro check
      exact plants_insertUnder _ (logical ++ auxiliary) (some check)
    · exact (plants_insertUnder _ (logical ++ auxiliary) none).of_eq (zero_add _).symm

theorem plants_bodyLevels (atoms : List Atom) : Plants 0 (inArena (bodyLevels atoms)) := by
  rw [bodyLevels, inArena_mapM]
  exact Plants.mapM _ fun entry => plants_expr (.element entry.2 (entry.1.arity + 1)) rfl

theorem plants_headLevel (atoms : List Atom) : Plants 0 (inArena (headLevel atoms)) := by
  have oneMore (level : Placed Expr) :
      Plants (roots level) (inArena do
        let one ← signed 1
        placeExpr (.operator .add [level, one])) := by
    rw [inArena_bind]
    apply Plants.fresh (plants_expr (.signed 1) rfl)
    intro one
    exact plants_expr (.operator .add [level, one]) (by simp [ExprNode.children, add_comm])
  rw [headLevel, inArena_bind]
  apply (plants_bodyLevels atoms).feed
  intro levels
  cases levels with
  | nil => exact plants_expr (.signed 0) rfl
  | cons first others =>
      cases others with
      | nil => exact (oneMore first).of_eq (by simp)
      | cons second rest =>
          dsimp only
          rw [inArena_bind]
          exact (plants_expr (.operator .max (first :: second :: rest)) rfl).feed oneMore

theorem plants_insertion (clause : Clause) (id : Nat) (frame : Frame) (incremental : Bool) :
    Plants 0 (lowerInsertion plan clause id frame incremental) := by
  rw [lowerInsertion]
  apply (plants_values frame.sites clause.head.args).feed
  intro logical
  cases plan.strategy with
  | seminaive => exact (plants_insertGuarded clause.head logical [] incremental).of_eq (by simp)
  | provenance =>
      apply Plants.after (Still.lift _)
      intro number
      apply Plants.fresh (plants_expr (.signed (Int64.ofNat number)) rfl)
      intro rule
      apply (plants_headLevel frame.atoms).fresh
      intro level
      apply (plants_insertGuarded clause.head logical [rule, level] incremental).of_eq
      simp [add_comm, add_left_comm, add_assoc]

theorem plants_compareWanted (sites : Sites) (arg : Argument) (wanted : Option (Placed Expr)) :
    Plants (roots wanted) (compareWanted sites arg wanted) := by
  cases wanted with
  | none => exact Plants.pure rfl
  | some wanted =>
      rw [compareWanted]
      apply (plants_value sites arg).fresh
      intro value
      apply (plants_compare .eq value wanted).feed
      intro condition
      exact Plants.pure rfl

/-- The value that is asked for and the one it is compared with are written apart. -/
theorem plants_matchComputed (frame : Frame) (slots : Slots) (arg : Argument) :
    Plants 0 (matchComputed frame slots arg) := by
  rw [matchComputed]
  split
  · rw [← bind_assoc]
    apply (plants_redirectedValue slots.sites slots arg).feed
    intro wanted
    exact plants_compareWanted frame.sites arg (some wanted)
  · exact plants_compareWanted frame.sites arg none

theorem plants_matchHead (frame : Frame) (slots : Slots) (arg : Argument) :
    Plants 0 (matchHeadArgument frame slots arg) := by
  cases arg with
  | var name =>
      rw [matchHeadArgument]
      cases slots.slot? name with
      | none => exact Plants.throw _
      | some slot =>
          apply Plants.feed (plants_expr (.argument slot) rfl)
          intro wanted
          exact plants_compareWanted frame.sites (.var name) (some wanted)
  | unnamed => exact plants_compareWanted frame.sites .unnamed none
  | constant value => exact plants_compareWanted frame.sites (.constant value) none
  | operator | external | aggregate | record | counter => exact plants_matchComputed frame slots _

theorem plants_levelConditions (atoms : List Atom) (slots : Slots) :
    Plants 0 (inArena (levelConditions plan atoms slots)) := by
  rw [levelConditions]
  cases plan.strategy with
  | seminaive => exact Plants.pure rfl
  | provenance =>
      rw [inArena_mapM]
      apply Plants.mapM
      rintro ⟨atom, tuple⟩
      dsimp only
      rw [inArena_bind]
      apply Plants.fresh (plants_expr (.element tuple (atom.arity + 1)) rfl)
      intro level
      rw [inArena_bind]
      apply Plants.fresh (plants_expr (.argument slots.size) rfl)
      intro limit
      exact (plants_compare .lt level limit).of_eq (by simp [add_comm])

theorem plants_guarded (conditions : List (Placed Cond)) (operation : Placed Op) :
    Plants (roots conditions + roots operation)
      (if conditions.isEmpty then pure operation
        else do
          let condition ← inArena (conjunction conditions)
          inArena (filter condition operation)) := by
  cases conditions with
  | nil => exact Plants.pure (by simp)
  | cons first rest =>
      apply (plants_conjunction (first :: rest)).bind
      intro condition
      exact plants_filter condition operation

theorem plants_reportedRows (atoms : List Atom) :
    Plants 0 (atoms.zipIdx.mapM fun (atom, tuple) =>
      (reportedColumns plan atom).mapM fun column => inArena (placeExpr (.element tuple column))) :=
  Plants.mapM _ fun entry => Plants.mapM _ fun column => plants_expr (.element entry.2 column) rfl

theorem plants_answer (clause : Clause) (frame : Frame) (slots : Slots) :
    Plants 0 (lowerAnswer plan clause frame slots) := by
  rw [lowerAnswer]
  apply (plants_reportedRows frame.atoms).fresh
  intro rows
  apply Plants.fresh (Plants.mapM clause.negatedAtoms fun atom => plants_values frame.sites atom.args)
  intro negated
  apply Plants.feed (plants_op (.answer (rows.flatten ++ negated.flatten))
    (by simp [OpNode.exprs, OpNode.conds, OpNode.ops, add_comm]))
  intro answer
  apply Plants.fresh (Plants.filterMapM clause.head.args (plants_matchHead frame slots))
  intro headConditions
  apply (plants_levelConditions frame.atoms slots).fresh
  intro levels
  apply (plants_guarded (headConditions ++ levels) answer).of_eq
  simp [add_left_comm, add_assoc]

theorem plants_constraints (sites : Sites) (body : List Literal) (operation : Placed Op) :
    Plants (roots operation) (addConstraints plan sites body operation) := by
  apply Plants.foldrM
  intro literal operation
  apply (plants_constraint sites literal).fresh
  intro condition
  cases condition with
  | none => exact Plants.pure (by simp)
  | some condition => exact plants_filter condition operation

/-- Sites hold no code. -/
instance : Rooted Sites := ⟨fun _ => 0⟩

@[simp] theorem roots_sites (sites : Sites) : roots sites = 0 := rfl

theorem plants_aggregateSites (tuple : Nat) (sites : Sites) (entries : List (Argument × Nat)) :
    Plants 0 (aggregateSites tuple sites entries) := by
  induction entries generalizing sites with
  | nil => exact Plants.pure rfl
  | cons entry rest ih =>
      obtain ⟨arg, column⟩ := entry
      by_cases isUnnamed : arg = .unnamed
      · subst isUnnamed
        exact ih sites
      · rw [aggregateSites]
        · cases introduced? sites arg with
          | some name => exact ih _
          | none =>
              apply Plants.fresh (plants_expr (.element tuple column) rfl)
              intro here
              apply (plants_value sites arg).fresh
              intro value
              apply Plants.feed ((plants_compare .eq here value).of_eq (by simp [add_comm]))
              intro comparison
              apply (ih sites).fresh
              rintro ⟨inner, comparisons⟩
              exact Plants.pure (by simp [add_comm])
        · exact isUnnamed

theorem plants_aggregate (sites : Sites) (aggregate : Aggregate) (tuple : Nat) (nested : Placed Op) :
    Plants (roots nested) (lowerAggregate plan sites aggregate tuple nested) := by
  rw [lowerAggregate]
  cases aggregate.body.filterMap Literal.positiveAtom? with
  | nil => exact Plants.throw _
  | cons atom others =>
      cases others with
      | cons _ _ => exact Plants.throw _
      | nil =>
          apply Plants.after (Still.lift _)
          intro _
          apply (plants_aggregateSites tuple sites atom.args.zipIdx).fresh
          rintro ⟨inner, comparisons⟩
          apply Plants.fresh (Plants.filterMapM aggregate.body (plants_constraint inner))
          intro constraints
          -- The value is chosen first; what is done with it does not depend on how.
          have foldValue (value : Option (Placed Expr)) :
              Plants (roots constraints + roots comparisons + (roots value + roots nested))
                (do
                  let condition ← inArena (conjunction (comparisons ++ constraints))
                  inArena (placeOp (.aggregate atom.relation.text tuple aggregate.function value condition nested))) := by
            apply ((plants_conjunction (comparisons ++ constraints)).of_eq (by simp [add_comm])).bind
            intro condition
            apply plants_op
            simp [OpNode.exprs, OpNode.conds, OpNode.ops, add_comm, add_assoc]
          cases aggregate.target with
          | none => exact (foldValue none).of_eq (by simp [add_assoc])
          | some target =>
              apply (plants_value inner target).inSome.fresh
              intro value
              exact (foldValue value).of_eq (by simp [add_left_comm, add_assoc])

theorem plants_aggregates (frame : Frame) (operation : Placed Op) :
    Plants (roots operation) (addAggregates plan frame operation) := by
  apply Plants.foldrM
  intro entry operation
  exact plants_aggregate frame.sites entry.1 (frame.atoms.length + entry.2) operation

theorem plants_matchBody (sites : Sites) (tuple column : Nat) (arg : Argument) :
    Plants 0 (matchBodyArgument sites tuple arg column) := by
  rw [matchBodyArgument_eq]
  split
  · exact Plants.pure rfl
  · apply (plants_value sites arg).fresh
    intro value
    apply Plants.fresh (plants_expr (.element tuple column) rfl)
    intro here
    apply Plants.feed ((plants_compare .eq here value).of_eq (by simp))
    intro comparison
    exact Plants.pure rfl

theorem plants_scan (version : Version) (sites : Sites) (atom : Atom) (tuple : Nat) (operation : Placed Op) :
    Plants (roots operation) (addScan version sites atom tuple operation) := by
  rw [addScan]
  apply Plants.fresh (Plants.filterMapM atom.args.zipIdx fun entry => plants_matchBody sites tuple entry.2 entry.1)
  intro conditions
  have scanned (nested : Placed Op) :
      Plants (roots nested) (inArena (placeOp
        (.scan (if version.readsDelta tuple then deltaName atom.relation else atom.relation.text) tuple nested))) :=
    plants_op _ (by simp [OpNode.exprs, OpNode.conds, OpNode.ops])
  cases conditions with
  | nil => exact (scanned operation).of_eq (by simp)
  | cons first rest =>
      apply (plants_conjunction (first :: rest)).bind
      intro condition
      exact (plants_filter condition operation).feed scanned

theorem plants_scans (version : Version) (frame : Frame) (operation : Placed Op) :
    Plants (roots operation) (addScans version frame operation) := by
  apply Plants.foldrM
  intro entry operation
  exact plants_scan version frame.sites entry.1 entry.2 operation

theorem plants_withClauseText (purpose : Purpose) (clause : Clause) (statement : Placed Stmt) :
    Plants (roots statement) (inArena (withClauseText plan purpose clause statement)) := by
  cases purpose with
  | insertion =>
      rw [withClauseText]
      split
      · exact plants_stmt (.debug clause.text statement) (by simp [StmtNode.conds, StmtNode.ops, StmtNode.stmts])
      · exact Plants.pure rfl
  | explanation slots => exact Plants.pure rfl

theorem plants_fact (clause : Clause) (id : Nat) : Plants 0 (lowerFact plan clause id) := by
  rw [lowerFact]
  apply (plants_values Sites.empty clause.head.args).feed
  intro logical
  have inserted (auxiliary : List (Placed Expr)) :
      Plants (roots logical + roots auxiliary)
        (do inArena (query (← inArena (insertGuarded plan clause.head logical auxiliary false)))) :=
    (plants_insertGuarded clause.head logical auxiliary false).feed plants_query
  cases plan.strategy with
  | seminaive => exact (inserted []).of_eq (by simp)
  | provenance =>
      apply Plants.after (Still.lift _)
      intro number
      apply Plants.fresh (plants_expr (.signed (Int64.ofNat number)) rfl)
      intro rule
      apply Plants.fresh (plants_expr (.signed 0) rfl)
      intro level
      exact (inserted [rule, level]).of_eq (by simp [add_comm, add_left_comm, add_assoc])

theorem plants_rule (clause : Clause) (id : Nat) (purpose : Purpose) (version : Version) :
    Plants 0 (lowerRule plan clause id purpose version) := by
  rw [lowerRule]
  apply Plants.after (Still.lift _)
  intro frame
  have rest (operation : Placed Op) :
      Plants (roots operation) (do
        let constrained ← addConstraints plan frame.sites clause.body operation
        let aggregated ← addAggregates plan frame constrained
        inArena (query (← addScans version frame aggregated))) := by
    apply (plants_constraints frame.sites clause.body operation).feed
    intro constrained
    apply (plants_aggregates frame constrained).feed
    intro aggregated
    exact (plants_scans version frame aggregated).feed plants_query
  cases purpose with
  | insertion => exact (plants_insertion clause id frame version.isIncremental).feed rest
  | explanation slots => exact (plants_answer clause frame slots).feed rest

theorem plants_clause (clause : Clause) (id : Nat) (purpose : Purpose) (version : Version) :
    Plants 0 (lowerClause plan clause id purpose version) := by
  rw [lowerClause]
  apply Plants.after (Still.lift _)
  intro _
  split
  · exact (plants_fact clause id).feed (plants_withClauseText purpose clause)
  · exact (plants_rule clause id purpose version).feed (plants_withClauseText purpose clause)

theorem plants_complete (clause : Clause) (id : Nat) (purpose : Purpose) :
    Plants 0 (lowerComplete plan clause id purpose) :=
  Plants.after (Still.report _ _ _) fun _ => plants_clause clause id purpose .complete

theorem plants_incremental (clause : Clause) (id : Nat) (stratum : List Name) (version : Nat) (purpose : Purpose) :
    Plants 0 (lowerIncremental plan clause id stratum version purpose) :=
  Plants.after (Still.report _ _ _) fun _ => plants_clause clause id purpose _

end DatalogRam.Lowering
