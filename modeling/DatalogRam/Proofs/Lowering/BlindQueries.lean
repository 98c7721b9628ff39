import DatalogRam.Proofs.Lowering.QueryWriting
import DatalogRam.Proofs.Lowering.SideBySide
import DatalogRam.Proofs.Machine.Unwrapped

/-!
# Queries are blind to statements

Two drafts match if they hold the same but for texts around statements. What they have in common is all that the
lowering of values, conditions and operations looks at, and all that it changes.
-/

namespace DatalogRam.Ram

/-- Arenas that differ in their statements at most. -/
structure Arena.SameQueries (left right : Arena) : Prop where
  exprs : left.exprs = right.exprs
  conds : left.conds = right.conds
  ops : left.ops = right.ops

/-- A statement without its texts is another one. Where they are in an arena does not matter. -/
def Placed.Wraps (wrapped plain : Placed Stmt) : Prop :=
  wrapped.tree.unwrapped = plain.tree

/-- Subroutines with the same parameters, of which the first one may have texts in its body. -/
structure Subroutine.Wraps (wrapped plain : Subroutine) : Prop where
  body : wrapped.body.Wraps plain.body
  parameters : wrapped.parameters = plain.parameters

/-- Subroutines under the same names. -/
def Subroutines.Wraps (wrapped plain : Subroutines) : Prop :=
  List.Forall₂ (fun entry other => entry.1 = other.1 ∧ entry.2.Wraps other.2) wrapped plain

theorem Subroutines.Wraps.insert {wrapped plain : Subroutines} {name : String} {subroutine other : Subroutine}
    (wraps : wrapped.Wraps plain) (same : subroutine.Wraps other) :
    (Subroutines.insert name subroutine wrapped).Wraps (Subroutines.insert name other plain) := by
  induction wraps with
  | nil => exact .cons ⟨rfl, same⟩ .nil
  | @cons entry entry' rest rest' isEntry areRest ih =>
      rw [Subroutines.insert, Subroutines.insert, ← isEntry.1]
      split
      · exact .cons ⟨rfl, same⟩ (.cons isEntry areRest)
      · split
        · exact .cons ⟨rfl, same⟩ areRest
        · exact .cons isEntry ih

end DatalogRam.Ram

namespace DatalogRam.Lowering

open Ram

/-- Drafts that differ in texts around statements at most. -/
structure Draft.Matches (left right : Draft) : Prop where
  arena : left.arena.SameQueries right.arena
  symbols : left.symbols = right.symbols
  tables : left.tables = right.tables
  subroutines : left.subroutines.Wraps right.subroutines
  events : left.events = right.events

variable {α β : Type} {plan : Plan} {slots : Slots}

/-! ## Steps -/

theorem SideBySide.inArena {related : α → β → Prop} {first : Build α} {second : Build β}
    (sameResult : ∀ left right, left.SameQueries right → related (first.run left).1 (second.run right).1)
    (sameArena : ∀ left right, left.SameQueries right → (first.run left).2.SameQueries (second.run right).2) :
    SideBySide Draft.Matches related (inArena first) (inArena second) :=
  fun left right matched =>
    ⟨.ok (sameResult left.arena right.arena matched.arena),
      { matched with arena := sameArena left.arena right.arena matched.arena }⟩

theorem Blind.tryInArena {build : ExceptT LoweringError Build α} (blind : Blind Arena.SameQueries build) :
    Blind Draft.Matches (tryInArena build) := by
  intro left right matched
  obtain ⟨agreeing, same⟩ := blind left.arena right.arena matched.arena
  change Agreeing _ (outcome _ left).1 (outcome _ right).1 ∧ (outcome _ left).2.Matches (outcome _ right).2
  rw [outcome_tryInArena (rfl : build.run.run left.arena = (_, _)),
    outcome_tryInArena (rfl : build.run.run right.arena = (_, _))]
  exact ⟨agreeing, { matched with arena := same }⟩

theorem blind_report (level : Level) (message : String) (fields : List (String × String)) :
    Blind Draft.Matches (report level message fields) := by
  intro left right matched
  refine ⟨.ok rfl, { matched with events := ?_ }⟩
  change left.events.push _ = right.events.push _
  rw [matched.events]

theorem blind_encodeSymbol (text : String) : Blind Draft.Matches (encodeSymbol text) := by
  intro left right matched
  refine ⟨?_, { matched with symbols := ?_ }⟩
  · change Agreeing _ (.ok (left.symbols.encode text).1) (.ok (right.symbols.encode text).1)
    rw [matched.symbols]
    exact .ok rfl
  · change (left.symbols.encode text).2 = (right.symbols.encode text).2
    rw [matched.symbols]

theorem blind_declareTable (table : Table) : Blind Draft.Matches (declareTable table) := by
  intro left right matched
  refine ⟨.ok rfl, ?_⟩
  change Draft.Matches (if _ then _ else _) (if _ then _ else _)
  rw [matched.tables]
  split
  · exact matched
  · exact { matched with tables := rfl }

theorem sideBySide_addSubroutine {name : String} {subroutine other : Subroutine} (same : subroutine.Wraps other) :
    SideBySide Draft.Matches (· = ·) (addSubroutine name subroutine) (addSubroutine name other) :=
  fun _ _ matched => ⟨.ok rfl, { matched with subroutines := matched.subroutines.insert same }⟩

/-! ## Building in the arena -/

theorem blind_expr (node : ExprNode (Placed Expr)) : Blind Draft.Matches (inArena (placeExpr node)) := by
  apply SideBySide.inArena
  · intro left right same
    change Placed.mk left.exprs.size _ = Placed.mk right.exprs.size _
    rw [same.exprs]
  · intro left right same
    exact { same with exprs := congrArg (fun nodes : Array (ExprNode Nat) => nodes.push _) same.exprs }

theorem blind_cond (node : CondNode (Placed Expr) (Placed Cond)) : Blind Draft.Matches (inArena (placeCond node)) := by
  apply SideBySide.inArena
  · intro left right same
    change Placed.mk left.conds.size _ = Placed.mk right.conds.size _
    rw [same.conds]
  · intro left right same
    exact { same with conds := congrArg (fun nodes : Array (CondNode Nat Nat) => nodes.push _) same.conds }

theorem blind_op (node : OpNode (Placed Expr) (Placed Cond) (Placed Op)) :
    Blind Draft.Matches (inArena (placeOp node)) := by
  apply SideBySide.inArena
  · intro left right same
    change Placed.mk left.ops.size _ = Placed.mk right.ops.size _
    rw [same.ops]
  · intro left right same
    exact { same with ops := congrArg (fun nodes : Array (OpNode Nat Nat Nat) => nodes.push _) same.ops }

theorem blind_conjunction (conditions : List (Placed Cond)) :
    Blind Draft.Matches (inArena (conjunction conditions)) := by
  cases conditions with
  | nil => exact blind_cond .true
  | cons first rest =>
      rw [conjunction]
      induction rest generalizing first with
      | nil => exact Blind.pure first
      | cons second rest ih =>
          rw [List.foldlM_cons, inArena_bind]
          exact (blind_cond (.both first second)).bind ih

mutual

theorem blind_copyExpr : ∀ expr : Expr, Blind Draft.Matches (inArena (copyExpr expr))
  | .signed _ | .unsigned _ | .float _ | .element _ _ | .argument _ | .undefined | .autoIncrement => blind_expr _
  | .operator op args => by
      rw [copyExpr, inArena_bind]
      exact (blind_copyExprs args).bind fun copies => blind_expr (.operator op copies)
  | .external name args => by
      rw [copyExpr, inArena_bind]
      exact (blind_copyExprs args).bind fun copies => blind_expr (.external name copies)
  | .pack args => by
      rw [copyExpr, inArena_bind]
      exact (blind_copyExprs args).bind fun copies => blind_expr (.pack copies)

theorem blind_copyExprs : ∀ exprs : List Expr, Blind Draft.Matches (inArena (copyExprs exprs))
  | [] => Blind.pure []
  | expr :: exprs => by
      rw [copyExprs, inArena_bind]
      apply (blind_copyExpr expr).bind
      intro copy
      rw [inArena_bind]
      exact (blind_copyExprs exprs).bind fun copies => Blind.pure (copy :: copies)

end

theorem blind_copyCond (condition : Cond) : Blind Draft.Matches (inArena (copyCond condition)) := by
  induction condition with
  | both left right leftCopy rightCopy =>
      rw [copyCond, inArena_bind]
      apply leftCopy.bind
      intro first
      rw [inArena_bind]
      exact rightCopy.bind fun second => blind_cond (.both first second)
  | not condition copied =>
      rw [copyCond, inArena_bind]
      exact copied.bind fun copy => blind_cond (.not copy)
  | compare op left right =>
      rw [copyCond, inArena_bind]
      apply (blind_copyExpr left).bind
      intro first
      rw [inArena_bind]
      exact (blind_copyExpr right).bind fun second => blind_cond (.compare op first second)
  | holds relation values =>
      rw [copyCond, inArena_bind]
      exact (blind_copyExprs values).bind fun copies => blind_cond (.holds relation copies)
  | true | false | isEmpty => exact blind_cond _

/-! ## Values and conditions -/

theorem blind_constant (value : Constant) : Blind Draft.Matches (lowerConstant value) := by
  cases value with
  | string text => exact (blind_encodeSymbol text).bind fun ordinal => blind_expr (.signed ordinal)
  | number | unsigned | float | nil => exact blind_expr _

mutual

theorem blind_value (sites : Sites) : ∀ arg : Argument, Blind Draft.Matches (lowerValue sites arg)
  | .var name => by
      rw [lowerValue]
      cases sites.definition? name with
      | none => exact Blind.throw _
      | some site => exact blind_expr _
  | .unnamed => by
      rw [lowerValue]
      exact blind_expr _
  | .constant value => by
      rw [lowerValue]
      exact blind_constant value
  | .operator op args => by
      rw [lowerValue]
      exact (blind_values sites args).bind fun values => blind_expr (.operator op values)
  | .external name args => by
      rw [lowerValue]
      exact (blind_values sites args).bind fun values => blind_expr (.external name values)
  | .aggregate function target body => by
      rw [lowerValue]
      cases sites.aggregate? ⟨function, target, body⟩ with
      | none => exact Blind.throw _
      | some site => exact blind_expr _
  | .record args => by
      rw [lowerValue]
      exact (blind_values sites args).bind fun values => blind_expr (.pack values)
  | .counter => by
      rw [lowerValue]
      exact blind_expr _

theorem blind_values (sites : Sites) : ∀ args : List Argument, Blind Draft.Matches (lowerValues sites args)
  | [] => by
      rw [lowerValues]
      exact Blind.pure []
  | arg :: args => by
      rw [lowerValues]
      apply (blind_value sites arg).bind
      intro value
      exact (blind_values sites args).bind fun values => Blind.pure (value :: values)

end

theorem blind_wildcards (count : Nat) : Blind Draft.Matches (inArena (wildcards count)) := by
  induction count with
  | zero => exact Blind.pure []
  | succ count ih =>
      rw [wildcards, inArena_bind]
      apply (blind_expr .undefined).bind
      intro first
      rw [inArena_bind]
      exact ih.bind fun rest => Blind.pure (first :: rest)

theorem blind_existenceCheck (relation : String) (values : List (Placed Expr)) (auxiliary : Nat) :
    Blind Draft.Matches (inArena (existenceCheck relation values auxiliary)) := by
  rw [existenceCheck, inArena_bind]
  exact (blind_wildcards auxiliary).bind fun padding => blind_cond (.holds relation (values ++ padding))

theorem blind_constraint (sites : Sites) (literal : Literal) :
    Blind Draft.Matches (lowerConstraint plan sites literal) := by
  have inSome (node : CondNode (Placed Expr) (Placed Cond)) :
      Blind Draft.Matches (do return some (← inArena (placeCond node))) :=
    (blind_cond node).bind fun condition => Blind.pure (some condition)
  cases literal with
  | positive relation args => exact Blind.pure none
  | negative relation args =>
      apply (Blind.lift _).bind
      intro _
      apply (blind_values sites args).bind
      intro values
      exact (blind_existenceCheck relation.text values plan.auxiliary).bind fun check => inSome (.not check)
  | comparison op left right =>
      apply (blind_value sites left).bind
      intro first
      exact (blind_value sites right).bind fun second => inSome (.compare op first second)
  | truth value =>
      cases value with
      | true => exact inSome .true
      | false => exact inSome .false

/-! ## Redirecting -/

theorem blind_setExpr (id : Nat) (node : ExprNode Nat) :
    Blind Arena.SameQueries (modifyThe Arena (·.setExpr id node) : ExceptT LoweringError Build PUnit) :=
  fun _ _ same =>
    ⟨.ok rfl, { same with exprs := congrArg (fun nodes : Array (ExprNode Nat) => nodes.setIfInBounds id node) same.exprs }⟩

/-- The walk through an expression looks at expressions only. -/
theorem blind_replaceWithin (slots : Slots) (depth id : Nat) :
    Blind Arena.SameQueries (replaceWithin (fun node => liftExcept (slots.redirect node)) depth id :
      ExceptT LoweringError Build Unit) := by
  induction depth generalizing id with
  | zero => exact Blind.pure ()
  | succ depth ih =>
      rw [replaceWithin]
      apply SideBySide.bind SideBySide.get
      intro left right same
      rw [same.exprs]
      cases right.exprs[id]? with
      | none => exact Blind.pure ()
      | some node =>
          apply (Blind.lift (slots.redirect node)).bind
          intro found
          cases found with
          | none => exact Blind.forM node.children ih
          | some replacement => exact blind_setExpr id replacement

theorem blind_replaceExpr (slots : Slots) (id : Nat) :
    Blind Arena.SameQueries (replaceExpr (fun node => liftExcept (slots.redirect node)) id :
      ExceptT LoweringError Build Unit) := by
  apply SideBySide.bind SideBySide.get
  intro left right same
  rw [same.exprs]
  exact blind_replaceWithin slots right.exprs.size id

theorem exprsWithin_congr {left right : Arena} (same : left.conds = right.conds) (depth id : Nat) :
    left.exprsWithin depth id = right.exprsWithin depth id := by
  induction depth generalizing id with
  | zero => rfl
  | succ depth ih => simp only [Arena.exprsWithin, same, ih]

theorem blind_replaceCond (slots : Slots) (id : Nat) :
    Blind Arena.SameQueries (replaceCond (fun node => liftExcept (slots.redirect node)) id :
      ExceptT LoweringError Build Unit) := by
  apply SideBySide.bind SideBySide.get
  intro left right same
  rw [Arena.exprsOfCond, same.conds, exprsWithin_congr same.conds]
  exact Blind.forM _ (blind_replaceExpr slots)

theorem blind_redirectExpr (value : Placed Expr) : Blind Draft.Matches (slots.redirectExpr value) := by
  rw [Slots.redirectExpr]
  apply (Blind.tryInArena (blind_replaceExpr slots value.id)).bind
  intro _
  exact (Blind.lift _).bind fun tree => Blind.pure (Placed.mk value.id tree)

theorem blind_redirectCond (condition : Placed Cond) : Blind Draft.Matches (slots.redirectCond condition) := by
  rw [Slots.redirectCond]
  apply (Blind.tryInArena (blind_replaceCond slots condition.id)).bind
  intro _
  exact (Blind.lift _).bind fun tree => Blind.pure (Placed.mk condition.id tree)

/-! ## Clauses -/

theorem blind_insertUnder (relation : String) (values : List (Placed Expr)) (guard : Option (Placed Cond)) :
    Blind Draft.Matches (inArena (insertUnder relation values guard)) := by
  rw [insertUnder, inArena_bind]
  apply (blind_op (.insert relation values)).bind
  intro insertion
  cases guard with
  | none => exact Blind.pure insertion
  | some condition => exact blind_op (.filter condition insertion)

theorem blind_insertGuarded (head : Atom) (logical auxiliary : List (Placed Expr)) (incremental : Bool) :
    Blind Draft.Matches (inArena (insertGuarded plan head logical auxiliary incremental)) := by
  rw [insertGuarded]
  split
  · rw [inArena_bind]
    apply (blind_copyExprs (logical.map Placed.tree)).bind
    intro copies
    rw [inArena_bind]
    apply (blind_existenceCheck head.relation.text copies plan.auxiliary).bind
    intro check
    rw [inArena_bind]
    exact (blind_cond (.not check)).bind fun negated => blind_insertUnder _ (logical ++ auxiliary) (some negated)
  · split
    · rw [inArena_bind]
      exact (blind_cond (.isEmpty head.relation.text)).bind fun check =>
        blind_insertUnder _ (logical ++ auxiliary) (some check)
    · exact blind_insertUnder _ (logical ++ auxiliary) none

theorem blind_bodyLevels (atoms : List Atom) : Blind Draft.Matches (inArena (bodyLevels atoms)) := by
  rw [bodyLevels, inArena_mapM]
  exact Blind.mapM _ fun entry => blind_expr (.element entry.2 (entry.1.arity + 1))

theorem blind_headLevel (atoms : List Atom) : Blind Draft.Matches (inArena (headLevel atoms)) := by
  have oneMore (level : Placed Expr) :
      Blind Draft.Matches (inArena do
        let one ← signed 1
        placeExpr (.operator .add [level, one])) := by
    rw [inArena_bind]
    exact (blind_expr (.signed 1)).bind fun one => blind_expr (.operator .add [level, one])
  rw [headLevel, inArena_bind]
  apply (blind_bodyLevels atoms).bind
  intro levels
  cases levels with
  | nil => exact blind_expr (.signed 0)
  | cons first others =>
      cases others with
      | nil => exact oneMore first
      | cons second rest =>
          dsimp only
          rw [inArena_bind]
          exact (blind_expr (.operator .max (first :: second :: rest))).bind oneMore

theorem blind_insertion (clause : Clause) (id : Nat) (frame : Frame) (incremental : Bool) :
    Blind Draft.Matches (lowerInsertion plan clause id frame incremental) := by
  rw [lowerInsertion]
  apply (blind_values frame.sites clause.head.args).bind
  intro logical
  cases plan.strategy with
  | seminaive => exact blind_insertGuarded clause.head logical [] incremental
  | provenance =>
      apply (Blind.lift _).bind
      intro number
      apply Blind.bind (blind_expr (.signed (Int64.ofNat number)))
      intro rule
      exact (blind_headLevel frame.atoms).bind fun level =>
        blind_insertGuarded clause.head logical [rule, level] incremental

theorem blind_compareWanted (sites : Sites) (arg : Argument) (wanted : Option (Placed Expr)) :
    Blind Draft.Matches (compareWanted sites arg wanted) := by
  cases wanted with
  | none => exact Blind.pure none
  | some wanted =>
      rw [compareWanted]
      apply (blind_value sites arg).bind
      intro value
      exact (blind_cond (.compare .eq value wanted)).bind fun condition => Blind.pure (some condition)

theorem blind_matchComputed (frame : Frame) (slots : Slots) (arg : Argument) :
    Blind Draft.Matches (matchComputed frame slots arg) := by
  rw [matchComputed]
  split
  · apply (blind_value slots.sites arg).bind
    intro value
    exact (blind_redirectExpr value).bind fun wanted => blind_compareWanted frame.sites arg (some wanted)
  · exact blind_compareWanted frame.sites arg none

theorem blind_matchHead (frame : Frame) (slots : Slots) (arg : Argument) :
    Blind Draft.Matches (matchHeadArgument frame slots arg) := by
  cases arg with
  | var name =>
      rw [matchHeadArgument]
      cases slots.slot? name with
      | none => exact Blind.throw _
      | some slot =>
          exact Blind.bind (blind_expr (.argument slot)) fun wanted =>
            blind_compareWanted frame.sites (.var name) (some wanted)
  | unnamed => exact blind_compareWanted frame.sites .unnamed none
  | constant value => exact blind_compareWanted frame.sites (.constant value) none
  | operator | external | aggregate | record | counter => exact blind_matchComputed frame slots _

theorem blind_levelConditions (atoms : List Atom) (slots : Slots) :
    Blind Draft.Matches (inArena (levelConditions plan atoms slots)) := by
  rw [levelConditions]
  cases plan.strategy with
  | seminaive => exact Blind.pure []
  | provenance =>
      rw [inArena_mapM]
      apply Blind.mapM
      rintro ⟨atom, tuple⟩
      dsimp only
      rw [inArena_bind]
      apply (blind_expr (.element tuple (atom.arity + 1))).bind
      intro level
      rw [inArena_bind]
      exact (blind_expr (.argument slots.size)).bind fun limit => blind_cond (.compare .lt level limit)

theorem blind_guarded (conditions : List (Placed Cond)) (operation : Placed Op) :
    Blind Draft.Matches
      (if conditions.isEmpty then pure operation
        else do
          let condition ← inArena (conjunction conditions)
          inArena (filter condition operation)) := by
  split
  · exact Blind.pure operation
  · exact (blind_conjunction conditions).bind fun condition => blind_op (.filter condition operation)

theorem blind_reportedRows (atoms : List Atom) :
    Blind Draft.Matches (atoms.zipIdx.mapM fun (atom, tuple) =>
      (reportedColumns plan atom).mapM fun column => inArena (placeExpr (.element tuple column))) :=
  Blind.mapM _ fun entry => Blind.mapM _ fun column => blind_expr (.element entry.2 column)

theorem blind_answer (clause : Clause) (frame : Frame) (slots : Slots) :
    Blind Draft.Matches (lowerAnswer plan clause frame slots) := by
  rw [lowerAnswer]
  apply (blind_reportedRows frame.atoms).bind
  intro rows
  apply (Blind.mapM clause.negatedAtoms fun atom => blind_values frame.sites atom.args).bind
  intro negated
  apply (blind_op (.answer (rows.flatten ++ negated.flatten))).bind
  intro answer
  apply (Blind.filterMapM clause.head.args (blind_matchHead frame slots)).bind
  intro headConditions
  apply (blind_levelConditions frame.atoms slots).bind
  intro levels
  exact blind_guarded (headConditions ++ levels) answer

theorem blind_constraints (sites : Sites) (body : List Literal) (operation : Placed Op) :
    Blind Draft.Matches (addConstraints plan sites body operation) := by
  apply Blind.foldrM
  intro literal operation
  apply (blind_constraint sites literal).bind
  intro condition
  cases condition with
  | none => exact Blind.pure operation
  | some condition => exact blind_op (.filter condition operation)

theorem blind_aggregateSites (tuple : Nat) (sites : Sites) (entries : List (Argument × Nat)) :
    Blind Draft.Matches (aggregateSites tuple sites entries) := by
  induction entries generalizing sites with
  | nil => exact Blind.pure (sites, [])
  | cons entry rest ih =>
      obtain ⟨arg, column⟩ := entry
      by_cases isUnnamed : arg = .unnamed
      · subst isUnnamed
        exact ih sites
      · rw [aggregateSites]
        · cases introduced? sites arg with
          | some name => exact ih _
          | none =>
              apply Blind.bind (blind_expr (.element tuple column))
              intro here
              apply (blind_value sites arg).bind
              intro value
              apply Blind.bind (blind_cond (.compare .eq here value))
              intro comparison
              exact (ih sites).bind fun found => Blind.pure (found.1, comparison :: found.2)
        · exact isUnnamed

theorem blind_aggregate (sites : Sites) (aggregate : Aggregate) (tuple : Nat) (nested : Placed Op) :
    Blind Draft.Matches (lowerAggregate plan sites aggregate tuple nested) := by
  rw [lowerAggregate]
  cases aggregate.body.filterMap Literal.positiveAtom? with
  | nil => exact Blind.throw _
  | cons atom others =>
      cases others with
      | cons _ _ => exact Blind.throw _
      | nil =>
          apply (Blind.lift _).bind
          intro _
          apply (blind_aggregateSites tuple sites atom.args.zipIdx).bind
          rintro ⟨inner, comparisons⟩
          apply (Blind.filterMapM aggregate.body (blind_constraint inner)).bind
          intro constraints
          have folded (value : Option (Placed Expr)) :
              Blind Draft.Matches (do
                let condition ← inArena (conjunction (comparisons ++ constraints))
                inArena (placeOp (.aggregate atom.relation.text tuple aggregate.function value condition nested))) :=
            (blind_conjunction (comparisons ++ constraints)).bind fun condition => blind_op _
          cases aggregate.target with
          | none => exact folded none
          | some target => exact (blind_value inner target).inSome.bind folded

theorem blind_aggregates (frame : Frame) (operation : Placed Op) :
    Blind Draft.Matches (addAggregates plan frame operation) := by
  apply Blind.foldrM
  intro entry operation
  exact blind_aggregate frame.sites entry.1 (frame.atoms.length + entry.2) operation

theorem blind_matchBody (sites : Sites) (tuple column : Nat) (arg : Argument) :
    Blind Draft.Matches (matchBodyArgument sites tuple arg column) := by
  rw [matchBodyArgument_eq]
  split
  · exact Blind.pure none
  · apply (blind_value sites arg).bind
    intro value
    apply Blind.bind (blind_expr (.element tuple column))
    intro here
    exact Blind.bind (blind_cond (.compare .eq here value)) fun comparison => Blind.pure (some comparison)

theorem blind_scan (version : Version) (sites : Sites) (atom : Atom) (tuple : Nat) (operation : Placed Op) :
    Blind Draft.Matches (addScan version sites atom tuple operation) := by
  rw [addScan]
  apply (Blind.filterMapM atom.args.zipIdx fun entry => blind_matchBody sites tuple entry.2 entry.1).bind
  intro conditions
  have scanned (nested : Placed Op) :
      Blind Draft.Matches (inArena (placeOp
        (.scan (if version.readsDelta tuple then deltaName atom.relation else atom.relation.text) tuple nested))) :=
    blind_op _
  cases conditions with
  | nil => exact scanned operation
  | cons first rest =>
      apply (blind_conjunction (first :: rest)).bind
      intro condition
      exact (blind_op (.filter condition operation)).bind scanned

theorem blind_scans (version : Version) (frame : Frame) (operation : Placed Op) :
    Blind Draft.Matches (addScans version frame operation) := by
  apply Blind.foldrM
  intro entry operation
  exact blind_scan version frame.sites entry.1 entry.2 operation

end DatalogRam.Lowering
