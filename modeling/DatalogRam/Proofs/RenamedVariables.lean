import DatalogRam.Proofs.Lowering.AggregateFrame
import DatalogRam.Proofs.Lowering.Programs
import DatalogRam.Proofs.Lowering.QueryWriting
import DatalogRam.Proofs.Lowering.Renaming

/-!
# Names of variables do not matter

A clause and the same clause with renamed variables are lowered alike. From drafts that hold the same code either both
fail, though their errors name other variables, or both give the same result, and in any case the drafts hold the same
code after it. So the code of a whole program is the same to the last number of a node, and a program that is refused
is refused under other names as well.
-/

namespace DatalogRam

namespace Lowering

open Ram

variable {α β γ δ ι κ : Type}

/-- Drafts that hold the same code. Different events may have been reported. -/
structure Draft.SameCode (left right : Draft) : Prop where
  arena : left.arena = right.arena
  symbols : left.symbols = right.symbols
  tables : left.tables = right.tables
  subroutines : left.subroutines = right.subroutines

/-- From drafts that hold the same code, both give results that are related or both fail, and leave drafts that hold the
same code. Unlike runs side by side they may fail with different errors, since an error names the variable that it is
about. -/
def EndAlike (related : α → β → Prop) (first : Lower α) (second : Lower β) : Prop :=
  ∀ left right, left.SameCode right →
    Option.Rel related (outcome first left).1.toOption (outcome second right).1.toOption ∧
      (outcome first left).2.SameCode (outcome second right).2

namespace EndAlike

variable {related : α → β → Prop} {alsoRelated : γ → δ → Prop}

theorem pure {a : α} {b : β} (isRelated : related a b) : EndAlike related (pure a) (pure b) :=
  fun _ _ same => ⟨.some isRelated, same⟩

theorem throw (error other : LoweringError) : EndAlike related (throw error) (throw other) :=
  fun _ _ same => ⟨.none, same⟩

theorem bind {first : Lower α} {second : Lower β} {next : α → Lower γ} {next' : β → Lower δ}
    (here : EndAlike related first second) (after : ∀ a b, related a b → EndAlike alsoRelated (next a) (next' b)) :
    EndAlike alsoRelated (first >>= next) (second >>= next') := by
  intro left right same
  obtain ⟨results, drafts⟩ := here left right same
  rw [outcome_bind, outcome_bind]
  revert results drafts
  generalize outcome first left = one
  generalize outcome second right = other
  obtain ⟨result, last⟩ := one
  obtain ⟨result', last'⟩ := other
  intro results drafts
  cases result with
  | error error =>
      cases result' with
      | error error' => exact ⟨.none, drafts⟩
      | ok b => cases results
  | ok a =>
      cases result' with
      | error error' => cases results
      | ok b =>
          cases results with
          | some isRelated => exact after a b isRelated last last' drafts

/-- Results that are the same are passed on. -/
theorem andThen {first second : Lower α} {next : α → Lower γ} {next' : α → Lower δ}
    (here : EndAlike (· = ·) first second) (after : ∀ a, EndAlike alsoRelated (next a) (next' a)) :
    EndAlike alsoRelated (first >>= next) (second >>= next') := by
  apply here.bind
  rintro a _ rfl
  exact after a

theorem inArena (build : Build α) : EndAlike (· = ·) (inArena build) (inArena build) := by
  intro left right same
  change Option.Rel _ (some (build.run left.arena).1) (some (build.run right.arena).1) ∧
    Draft.SameCode ⟨(build.run left.arena).2, _, _, _, _⟩ ⟨(build.run right.arena).2, _, _, _, _⟩
  rw [same.arena]
  exact ⟨.some rfl, rfl, same.symbols, same.tables, same.subroutines⟩

theorem lift {result : Except LoweringError α} {other : Except LoweringError β}
    (results : Option.Rel related result.toOption other.toOption) :
    EndAlike related (liftExcept result) (liftExcept other) := by
  cases result with
  | error error =>
      cases other with
      | error error' => exact throw error error'
      | ok b => cases results
  | ok a =>
      cases other with
      | error error' => cases results
      | ok b =>
          cases results with
          | some isRelated => exact pure isRelated

theorem required (result : Except LoweringError α) : EndAlike (· = ·) (liftExcept result) (liftExcept result) :=
  lift (by cases result.toOption <;> constructor; rfl)

theorem tryInArena (build : ExceptT LoweringError Build α) :
    EndAlike (· = ·) (tryInArena build) (tryInArena build) := by
  apply (inArena build.run).andThen
  intro result
  cases result with
  | error error => exact throw error error
  | ok a => exact pure rfl

theorem encodeSymbol (text : String) : EndAlike (· = ·) (encodeSymbol text) (encodeSymbol text) := by
  intro left right same
  change Option.Rel _ (some (left.symbols.encode text).1) (some (right.symbols.encode text).1) ∧
    Draft.SameCode ⟨_, (left.symbols.encode text).2, _, _, _⟩ ⟨_, (right.symbols.encode text).2, _, _, _⟩
  rw [same.symbols]
  exact ⟨.some rfl, same.arena, rfl, same.tables, same.subroutines⟩

theorem declareTable (table : Table) : EndAlike (· = ·) (declareTable table) (declareTable table) := by
  intro left right same
  refine ⟨.some rfl, ?_⟩
  change Draft.SameCode (if _ then _ else _) (if _ then _ else _)
  rw [same.tables]
  split
  · exact same
  · exact { same with tables := rfl }

/-- What is reported may differ. -/
theorem report (level : Level) (message : String) (fields others : List (String × String)) :
    EndAlike (· = ·) (report level message fields) (report level message others) :=
  fun _ _ same => ⟨.some rfl, same.arena, same.symbols, same.tables, same.subroutines⟩

theorem adapt {first : Lower α} {second : Lower β} (change : LoweringError → LoweringError)
    (here : EndAlike related first second) :
    EndAlike related (ExceptT.adapt change first : Lower α) (ExceptT.adapt change second : Lower β) := by
  intro left right same
  have forgotten {ε : Type} (result : Except LoweringError ε) :
      (result.mapError change).toOption = result.toOption := by
    cases result <;> rfl
  change Option.Rel related ((outcome first left).1.mapError change).toOption
    ((outcome second right).1.mapError change).toOption ∧ (outcome first left).2.SameCode (outcome second right).2
  rw [forgotten, forgotten]
  exact here left right same

theorem mapM {first : κ → Lower α} {second : ι → Lower α} {change : ι → κ} (elements : List ι)
    (each : ∀ element, EndAlike (· = ·) (first (change element)) (second element)) :
    EndAlike (· = ·) ((elements.map change).mapM first) (elements.mapM second) := by
  induction elements with
  | nil => exact pure rfl
  | cons element rest ih =>
      rw [List.map_cons, List.mapM_cons, List.mapM_cons]
      exact (each element).andThen fun a => ih.andThen fun others => pure rfl

theorem filterMapM {first : κ → Lower (Option α)} {second : ι → Lower (Option α)} {change : ι → κ} (elements : List ι)
    (each : ∀ element, EndAlike (· = ·) (first (change element)) (second element)) :
    EndAlike (· = ·) ((elements.map change).filterMapM first) (elements.filterMapM second) := by
  induction elements with
  | nil => exact pure rfl
  | cons element rest ih =>
      rw [List.map_cons, List.filterMapM_cons, List.filterMapM_cons]
      apply (each element).andThen
      intro found
      cases found with
      | none => exact ih
      | some a => exact ih.andThen fun others => pure rfl

theorem foldrM {first : κ → α → Lower α} {second : ι → α → Lower α} {change : ι → κ} (elements : List ι) (start : α)
    (each : ∀ element a, EndAlike (· = ·) (first (change element) a) (second element a)) :
    EndAlike (· = ·) ((elements.map change).foldrM first start) (elements.foldrM second start) := by
  induction elements with
  | nil => exact pure rfl
  | cons element rest ih =>
      rw [List.map_cons, List.foldrM_cons, List.foldrM_cons]
      exact ih.andThen fun a => each element a

theorem inSome {first second : Lower α} (here : EndAlike (· = ·) first second) :
    EndAlike (· = ·) (some <$> first) (some <$> second) := by
  rw [map_eq_pure_bind, map_eq_pure_bind]
  exact here.andThen fun a => pure rfl

/-- Results for the same elements. -/
theorem each {first second : ι → Lower α} (elements : List ι)
    (alike : ∀ element, EndAlike (· = ·) (first element) (second element)) :
    EndAlike (· = ·) (elements.mapM first) (elements.mapM second) := by
  have mapped := @mapM _ _ _ first second id elements alike
  rwa [List.map_id] at mapped

theorem forM {first second : ι → Lower Unit} (elements : List ι)
    (alike : ∀ element, EndAlike (· = ·) (first element) (second element)) :
    EndAlike (· = ·) (elements.forM first) (elements.forM second) := by
  induction elements with
  | nil => exact pure rfl
  | cons element rest ih =>
      exact (alike element).andThen fun _ => ih

end EndAlike

/-- The plan for a program with renamed variables. -/
def Plan.rename (names : Nat → String → String) (plan : Plan) : Plan :=
  { plan with program := plan.program.rename names }

theorem Plan.strategy_rename (names : Nat → String → String) (plan : Plan) :
    (plan.rename names).strategy = plan.strategy :=
  rfl

def Purpose.rename (change : String → String) : Purpose → Purpose
  | insertion => insertion
  | explanation slots => explanation (slots.rename change)

/-! ## Values and conditions -/

theorem renamed_constant (value : Constant) : EndAlike (· = ·) (lowerConstant value) (lowerConstant value) := by
  cases value with
  | string text => exact (EndAlike.encodeSymbol text).andThen fun ordinal => EndAlike.inArena _
  | number | unsigned | float | nil => exact EndAlike.inArena _

section Clauses

variable {plan : Plan} {names : Nat → String → String} {change : String → String}

mutual

/-- A value is read at the same site under its new name. -/
theorem renamed_value (injective : Function.Injective change) (sites : Sites) : ∀ arg : Argument,
    EndAlike (· = ·) (lowerValue (sites.rename change) (arg.rename change)) (lowerValue sites arg)
  | .var name => by
      rw [Argument.rename, lowerValue, lowerValue, sites.definition?_rename injective]
      cases sites.definition? name with
      | none => exact EndAlike.throw _ _
      | some site => exact EndAlike.inArena _
  | .unnamed => by
      rw [Argument.rename, lowerValue, lowerValue]
      exact EndAlike.inArena _
  | .constant value => by
      rw [Argument.rename, lowerValue, lowerValue]
      exact renamed_constant value
  | .operator op args => by
      rw [Argument.rename, lowerValue, lowerValue]
      exact (renamed_values injective sites args).andThen fun values => EndAlike.inArena _
  | .external name args => by
      rw [Argument.rename, lowerValue, lowerValue]
      exact (renamed_values injective sites args).andThen fun values => EndAlike.inArena _
  | .aggregate function target body => by
      have found := sites.aggregate?_rename injective ⟨function, target, body⟩
      rw [Aggregate.rename] at found
      rw [Argument.rename, lowerValue, lowerValue, found]
      cases sites.aggregate? ⟨function, target, body⟩ with
      | none => exact EndAlike.throw _ _
      | some site => exact EndAlike.inArena _
  | .record args => by
      rw [Argument.rename, lowerValue, lowerValue]
      exact (renamed_values injective sites args).andThen fun values => EndAlike.inArena _
  | .counter => by
      rw [Argument.rename, lowerValue, lowerValue]
      exact EndAlike.inArena _

theorem renamed_values (injective : Function.Injective change) (sites : Sites) : ∀ args : List Argument,
    EndAlike (· = ·) (lowerValues (sites.rename change) (Argument.renameAll change args)) (lowerValues sites args)
  | [] => by
      rw [Argument.renameAll, lowerValues, lowerValues]
      exact EndAlike.pure rfl
  | arg :: args => by
      rw [Argument.renameAll, lowerValues, lowerValues]
      exact (renamed_value injective sites arg).andThen fun value =>
        (renamed_values injective sites args).andThen fun values => EndAlike.pure rfl

end

variable (injective : Function.Injective change)

include injective

theorem renamed_constraint (sites : Sites) (literal : Literal) :
    EndAlike (· = ·) (lowerConstraint (plan.rename names) (sites.rename change) (literal.rename change))
      (lowerConstraint plan sites literal) := by
  have inSome (node : CondNode (Placed Expr) (Placed Cond)) :
      EndAlike (· = ·) (do return some (← inArena (placeCond node))) (do return some (← inArena (placeCond node))) :=
    (EndAlike.inArena (placeCond node)).andThen fun condition => EndAlike.pure rfl
  cases literal with
  | positive relation args => exact EndAlike.pure rfl
  | negative relation args =>
      apply (EndAlike.required _).andThen
      intro _
      apply (renamed_values injective sites args).andThen
      intro values
      exact (EndAlike.inArena (existenceCheck relation.text values plan.auxiliary)).andThen fun check =>
        inSome (.not check)
  | comparison op left right =>
      apply (renamed_value injective sites left).andThen
      intro first
      exact (renamed_value injective sites right).andThen fun second => inSome (.compare op first second)
  | truth value =>
      cases value with
      | true => exact inSome .true
      | false => exact inSome .false

/-! ## Insertions -/

omit injective in
theorem insertGuarded_rename (head : Atom) :
    insertGuarded (plan.rename names) (head.rename change) = insertGuarded plan head := by
  funext logical auxiliary incremental
  rw [insertGuarded, insertGuarded, head.arity_rename]
  rfl

omit injective in
theorem headLevel_rename (atoms : List Atom) : headLevel (atoms.map (Atom.rename change)) = headLevel atoms := by
  have same : bodyLevels (atoms.map (Atom.rename change)) = bodyLevels atoms := by
    rw [bodyLevels, bodyLevels, List.zipIdx_map, List.mapM_map]
    refine congrArg (fun level => List.mapM level atoms.zipIdx) (funext fun entry => ?_)
    rw [Function.comp_apply]
    change placeExpr (.element entry.2 ((entry.1.rename change).arity + 1)) = _
    rw [entry.1.arity_rename]
  rw [headLevel, headLevel, same]

omit injective in
/-- The number of a rule is the same. If it has none, the error shows the rule. -/
theorem renamed_number (clause : Clause) (id : Nat) :
    EndAlike (· = ·) (liftExcept ((plan.rename names).clauseNumber (clause.rename change) id) : Lower Nat)
      (liftExcept (plan.clauseNumber clause id)) := by
  have earlier : ((plan.rename names).program.clausesOf clause.head.relation).filter
        (fun entry => !entry.1.isFact && decide (entry.2 < id)) =
      ((plan.program.clausesOf clause.head.relation).filter
        fun entry => !entry.1.isFact && decide (entry.2 < id)).map (renameEntry names) := by
    rw [Plan.rename, Program.clausesOf_rename, List.filter_map]
    refine congrArg _ (List.filter_congr fun entry _ => ?_)
    rw [Function.comp_apply, renameEntry, Clause.isFact_rename]
  apply EndAlike.lift
  rw [Plan.clauseNumber, Plan.clauseNumber, clause.isFact_rename]
  change Option.Rel _ (Except.toOption (if plan.program.declares clause.head.relation then _ else _)) _
  split
  · split
    · exact .some rfl
    · exact .some (by rw [Clause.rename, Atom.rename, earlier, List.length_map])
  · exact .none

theorem renamed_insertion (clause : Clause) (id : Nat) (frame : Frame) (incremental : Bool) :
    EndAlike (· = ·) (lowerInsertion (plan.rename names) (clause.rename change) id (frame.rename change) incremental)
      (lowerInsertion plan clause id frame incremental) := by
  rw [lowerInsertion, lowerInsertion]
  simp only [Clause.rename, insertGuarded_rename, Frame.rename, headLevel_rename]
  apply (renamed_values injective frame.sites clause.head.args).andThen
  intro logical
  rw [Plan.strategy_rename]
  cases plan.strategy with
  | seminaive => exact EndAlike.inArena _
  | provenance =>
      apply (renamed_number clause id).andThen
      intro number
      apply EndAlike.andThen (EndAlike.inArena (signed (Int64.ofNat number)))
      intro rule
      exact (EndAlike.inArena (headLevel frame.atoms)).andThen fun level => EndAlike.inArena _

/-! ## Answers -/

omit injective in
theorem redirected_alike (slots : Slots) (value : Placed Expr) :
    EndAlike (· = ·) (slots.redirectExpr value) (slots.redirectExpr value) :=
  (EndAlike.tryInArena _).andThen fun _ => (EndAlike.required _).andThen fun _ => EndAlike.pure rfl

theorem renamed_compareWanted (sites : Sites) (arg : Argument) (wanted : Option (Placed Expr)) :
    EndAlike (· = ·) (compareWanted (sites.rename change) (arg.rename change) wanted)
      (compareWanted sites arg wanted) := by
  cases wanted with
  | none => exact EndAlike.pure rfl
  | some wanted =>
      rw [compareWanted, compareWanted]
      apply (renamed_value injective sites arg).andThen
      intro value
      exact (EndAlike.inArena (compareEqual value wanted)).andThen fun condition => EndAlike.pure rfl

theorem renamed_matchComputed (frame : Frame) (slots : Slots) (arg : Argument) :
    EndAlike (· = ·) (matchComputed (frame.rename change) (slots.rename change) (arg.rename change))
      (matchComputed frame slots arg) := by
  rw [matchComputed, matchComputed, Argument.aggregates_rename, List.isEmpty_map, slots.sites_rename injective,
    Slots.redirectExpr_rename]
  split
  · apply (renamed_value injective slots.sites arg).andThen
    intro value
    exact (redirected_alike slots value).andThen fun wanted =>
      renamed_compareWanted injective frame.sites arg (some wanted)
  · exact renamed_compareWanted injective frame.sites arg none

theorem renamed_matchHead (frame : Frame) (slots : Slots) (arg : Argument) :
    EndAlike (· = ·) (matchHeadArgument (frame.rename change) (slots.rename change) (arg.rename change))
      (matchHeadArgument frame slots arg) := by
  cases arg with
  | var name =>
      rw [Argument.rename, matchHeadArgument, matchHeadArgument, slots.slot?_rename injective]
      cases slots.slot? name with
      | none => exact EndAlike.throw _ _
      | some slot =>
          exact EndAlike.andThen (EndAlike.inArena (placeExpr (.argument slot))) fun wanted =>
            renamed_compareWanted injective frame.sites (.var name) (some wanted)
  | unnamed => exact renamed_compareWanted injective frame.sites .unnamed none
  | constant value => exact renamed_compareWanted injective frame.sites (.constant value) none
  | operator op args => exact renamed_matchComputed injective frame slots (.operator op args)
  | external name args => exact renamed_matchComputed injective frame slots (.external name args)
  | aggregate function target body =>
      exact renamed_matchComputed injective frame slots (.aggregate function target body)
  | record args => exact renamed_matchComputed injective frame slots (.record args)
  | counter => exact renamed_matchComputed injective frame slots .counter

omit injective in
theorem levelConditions_rename (atoms : List Atom) (slots : Slots) :
    levelConditions (plan.rename names) (atoms.map (Atom.rename change)) (slots.rename change) =
      levelConditions plan atoms slots := by
  rw [levelConditions, levelConditions, Plan.strategy_rename]
  cases plan.strategy with
  | seminaive => rfl
  | provenance =>
      simp only [List.zipIdx_map, List.mapM_map, Slots.size_rename]
      refine congrArg (fun level => List.mapM level atoms.zipIdx) (funext fun entry => ?_)
      simp only [Function.comp_apply, Prod.map, Atom.arity_rename, id_eq]

omit injective in
theorem reportedColumns_rename (atom : Atom) :
    reportedColumns (plan.rename names) (atom.rename change) = reportedColumns plan atom := by
  rw [reportedColumns, reportedColumns, atom.arity_rename]
  rfl

theorem renamed_answer (clause : Clause) (frame : Frame) (slots : Slots) :
    EndAlike (· = ·)
      (lowerAnswer (plan.rename names) (clause.rename change) (frame.rename change) (slots.rename change))
      (lowerAnswer plan clause frame slots) := by
  have guarded (conditions : List (Placed Cond)) (answer : Placed Op) :
      EndAlike (· = ·) (if conditions.isEmpty then Pure.pure answer
        else do inArena (filter (← inArena (conjunction conditions)) answer) : Lower (Placed Op))
        (if conditions.isEmpty then Pure.pure answer
        else do inArena (filter (← inArena (conjunction conditions)) answer)) := by
    split
    · exact EndAlike.pure rfl
    · exact (EndAlike.inArena (conjunction conditions)).andThen fun condition => EndAlike.inArena _
  rw [lowerAnswer, lowerAnswer, clause.negatedAtoms_rename]
  simp only [Frame.rename, levelConditions_rename, List.zipIdx_map]
  refine EndAlike.andThen (EndAlike.mapM frame.atoms.zipIdx fun entry => ?_) fun rows => ?_
  · change EndAlike _ (List.mapM _ (reportedColumns (plan.rename names) (entry.1.rename change))) _
    rw [reportedColumns_rename]
    exact EndAlike.each _ fun column => EndAlike.inArena _
  refine EndAlike.andThen (EndAlike.mapM clause.negatedAtoms fun atom =>
    renamed_values injective frame.sites atom.args) fun negated => ?_
  apply EndAlike.andThen (EndAlike.inArena (placeOp (.answer (rows.flatten ++ negated.flatten))))
  intro answer
  rw [Clause.rename, Atom.rename, Argument.renameAll_eq_map]
  apply (EndAlike.filterMapM clause.head.args (renamed_matchHead injective frame slots)).andThen
  intro headConditions
  exact (EndAlike.inArena (levelConditions plan frame.atoms slots)).andThen fun levels =>
    guarded (headConditions ++ levels) answer

/-! ## Bodies -/

theorem renamed_constraints (sites : Sites) (body : List Literal) (operation : Placed Op) :
    EndAlike (· = ·)
      (addConstraints (plan.rename names) (sites.rename change) (Literal.renameAll change body) operation)
      (addConstraints plan sites body operation) := by
  rw [addConstraints, addConstraints, Literal.renameAll_eq_map]
  apply EndAlike.foldrM
  intro literal operation
  apply (renamed_constraint injective sites literal).andThen
  intro condition
  cases condition with
  | none => exact EndAlike.pure rfl
  | some condition => exact EndAlike.inArena (filter condition operation)

/-- Within an aggregate the same names are introduced, under new names. -/
theorem renamed_aggregateSites (tuple : Nat) (sites : Sites) (entries : List (Argument × Nat)) :
    EndAlike (fun found original => found = (original.1.rename change, original.2))
      (aggregateSites tuple (sites.rename change) (entries.map (Prod.map (Argument.rename change) id)))
      (aggregateSites tuple sites entries) := by
  induction entries generalizing sites with
  | nil => exact EndAlike.pure rfl
  | cons entry rest ih =>
      obtain ⟨arg, column⟩ := entry
      by_cases isUnnamed : arg = .unnamed
      · subst isUnnamed
        exact ih sites
      · have stillNamed : arg.rename change ≠ .unnamed := mt Argument.rename_eq_unnamed.1 isUnnamed
        rw [List.map_cons, Prod.map_apply, aggregateSites, aggregateSites, sites.introduced?_rename injective]
        · cases introduced? sites arg with
          | some name =>
              have added := ih (sites.addVariable name ⟨tuple, column⟩)
              rwa [← sites.addVariable_rename injective] at added
          | none =>
              apply EndAlike.andThen (EndAlike.inArena (placeExpr (.element tuple column)))
              intro here
              apply (renamed_value injective sites arg).andThen
              intro value
              apply EndAlike.andThen (EndAlike.inArena (compareEqual here value))
              intro comparison
              apply (ih sites).bind
              rintro _ ⟨inner, comparisons⟩ rfl
              exact EndAlike.pure rfl
        · exact isUnnamed
        · exact stillNamed

theorem renamed_aggregate (sites : Sites) (aggregate : Aggregate) (tuple : Nat) (nested : Placed Op) :
    EndAlike (· = ·) (lowerAggregate (plan.rename names) (sites.rename change) (aggregate.rename change) tuple nested)
      (lowerAggregate plan sites aggregate tuple nested) := by
  rw [lowerAggregate, lowerAggregate, Aggregate.rename, positiveAtoms_renameAll]
  cases aggregate.body.filterMap Literal.positiveAtom? with
  | nil => exact EndAlike.throw _ _
  | cons atom others =>
      cases others with
      | cons _ _ => exact EndAlike.throw _ _
      | nil =>
          apply (EndAlike.required _).andThen
          intro _
          rw [Atom.rename, Argument.renameAll_eq_map, List.zipIdx_map]
          apply (renamed_aggregateSites injective tuple sites atom.args.zipIdx).bind
          rintro _ ⟨inner, comparisons⟩ rfl
          rw [Literal.renameAll_eq_map]
          apply (EndAlike.filterMapM aggregate.body (renamed_constraint injective inner)).andThen
          intro constraints
          have folded (value : Option (Placed Expr)) :
              EndAlike (· = ·)
                (do
                  let condition ← inArena (conjunction (comparisons ++ constraints))
                  inArena (placeOp (.aggregate atom.relation.text tuple aggregate.function value condition nested)))
                (do
                  let condition ← inArena (conjunction (comparisons ++ constraints))
                  inArena (placeOp (.aggregate atom.relation.text tuple aggregate.function value condition nested))) :=
            (EndAlike.inArena (conjunction (comparisons ++ constraints))).andThen fun condition => EndAlike.inArena _
          cases aggregate.target with
          | none => exact folded none
          | some target => exact (renamed_value injective inner target).inSome.andThen folded

theorem renamed_aggregates (frame : Frame) (operation : Placed Op) :
    EndAlike (· = ·) (addAggregates (plan.rename names) (frame.rename change) operation)
      (addAggregates plan frame operation) := by
  rw [addAggregates, addAggregates, Frame.rename, List.zipIdx_map, List.length_map]
  apply EndAlike.foldrM
  intro entry operation
  exact renamed_aggregate injective frame.sites entry.1 (frame.atoms.length + entry.2) operation

theorem isFree_rename (sites : Sites) (tuple column : Nat) (arg : Argument) :
    isFree (sites.rename change) tuple column (arg.rename change) = isFree sites tuple column arg := by
  cases arg with
  | var name => rw [Argument.rename, isFree, isFree, sites.definition?_rename injective]
  | unnamed | constant | operator | external | aggregate | record | counter => rfl

theorem renamed_matchBody (sites : Sites) (tuple column : Nat) (arg : Argument) :
    EndAlike (· = ·) (matchBodyArgument (sites.rename change) tuple (arg.rename change) column)
      (matchBodyArgument sites tuple arg column) := by
  rw [matchBodyArgument_eq, matchBodyArgument_eq, isFree_rename injective]
  split
  · exact EndAlike.pure rfl
  · apply (renamed_value injective sites arg).andThen
    intro value
    apply EndAlike.andThen (EndAlike.inArena (placeExpr (.element tuple column)))
    intro here
    exact (EndAlike.inArena (compareEqual here value)).andThen fun comparison => EndAlike.pure rfl

theorem renamed_scan (version : Version) (sites : Sites) (atom : Atom) (tuple : Nat) (operation : Placed Op) :
    EndAlike (· = ·) (addScan version (sites.rename change) (atom.rename change) tuple operation)
      (addScan version sites atom tuple operation) := by
  have scanned (conditions : List (Placed Cond)) (table : String) :
      EndAlike (· = ·)
        (do
          let nested ← if conditions.isEmpty then Pure.pure operation
            else do inArena (filter (← inArena (conjunction conditions)) operation)
          inArena (placeOp (.scan table tuple nested)) : Lower (Placed Op))
        (do
          let nested ← if conditions.isEmpty then Pure.pure operation
            else do inArena (filter (← inArena (conjunction conditions)) operation)
          inArena (placeOp (.scan table tuple nested))) := by
    split
    · exact EndAlike.andThen (@EndAlike.pure _ _ _ operation _ rfl) fun nested => EndAlike.inArena _
    · apply (EndAlike.inArena (conjunction conditions)).andThen
      intro condition
      exact (EndAlike.inArena (filter condition operation)).andThen fun nested => EndAlike.inArena _
  rw [addScan, addScan, Atom.rename, Argument.renameAll_eq_map, List.zipIdx_map]
  apply (EndAlike.filterMapM atom.args.zipIdx fun entry =>
    renamed_matchBody injective sites tuple entry.2 entry.1).andThen
  intro conditions
  exact scanned conditions _

theorem renamed_scans (version : Version) (frame : Frame) (operation : Placed Op) :
    EndAlike (· = ·) (addScans version (frame.rename change) operation) (addScans version frame operation) := by
  rw [addScans, addScans, Frame.rename, List.zipIdx_map]
  apply EndAlike.foldrM
  intro entry operation
  exact renamed_scan injective version frame.sites entry.1 entry.2 operation

/-! ## Queries -/

/-- The frame of a renamed clause is the renamed frame. -/
theorem clauseFrame_rename (clause : Clause) :
    clauseFrame (clause.rename change) = (clauseFrame clause).rename change := by
  have atoms : atomSites (clause.positiveAtoms.map (Atom.rename change)) =
      (atomSites clause.positiveAtoms).rename change := by
    rw [atomSites, atomSites, List.zipIdx_map, List.foldl_map]
    refine @List.foldl_hom _ _ _ (Sites.rename change) _ _ _ Sites.empty fun sites entry => ?_
    exact addAtomSites_rename injective sites entry.2 entry.1
  have results : aggregateSitesOf (clause.rename change) = (aggregateSitesOf clause).rename change := by
    rw [aggregateSitesOf, aggregateSitesOf, clauseAggregates_rename injective, clause.positiveAtoms_rename, atoms,
      List.zipIdx_map, List.foldl_map, List.length_map]
    exact List.foldl_hom (Sites.rename change) fun sites entry => rfl
  rw [clauseFrame, clauseFrame, results, clause.positiveAtoms_rename, clauseAggregates_rename injective, Frame.rename,
    Clause.rename, Literal.renameAll_eq_map, List.foldl_map]
  exact congrArg (Frame.mk · _ _) (List.foldl_hom (Sites.rename change) (addResultSite_rename injective))

theorem renamed_frame (clause : Clause) :
    EndAlike (fun found original => found = original.rename change)
      (liftExcept (frameOf (plan.rename names) (clause.rename change)) : Lower Frame)
      (liftExcept (frameOf plan clause)) := by
  have framed (plan : Plan) (clause : Clause) : frameOf plan clause =
      (do
        clause.positiveAtoms.forM fun atom => discard (plan.requireRelation atom.relation)
        return clauseFrame clause) := rfl
  have required : (clause.rename change).positiveAtoms.forM
        (fun atom => discard ((plan.rename names).requireRelation atom.relation)) =
      clause.positiveAtoms.forM fun atom => discard (plan.requireRelation atom.relation) := by
    rw [clause.positiveAtoms_rename]
    exact List.forM_map
  rw [framed, framed, required, clauseFrame_rename injective]
  cases clause.positiveAtoms.forM fun atom => discard (plan.requireRelation atom.relation) with
  | error error => exact EndAlike.throw error error
  | ok _ => exact EndAlike.pure rfl

theorem renamed_fact (clause : Clause) (id : Nat) :
    EndAlike (· = ·) (lowerFact (plan.rename names) (clause.rename change) id) (lowerFact plan clause id) := by
  have inserted (logical auxiliary : List (Placed Expr)) :
      EndAlike (· = ·)
        (do inArena (query (← inArena (insertGuarded plan clause.head logical auxiliary false))))
        (do inArena (query (← inArena (insertGuarded plan clause.head logical auxiliary false)))) :=
    (EndAlike.inArena _).andThen fun operation => EndAlike.inArena (query operation)
  rw [lowerFact, lowerFact]
  simp only [Clause.rename, insertGuarded_rename]
  apply EndAlike.andThen (renamed_values injective .empty clause.head.args)
  intro logical
  rw [Plan.strategy_rename]
  cases plan.strategy with
  | seminaive => exact inserted logical []
  | provenance =>
      apply (renamed_number clause id).andThen
      intro number
      apply EndAlike.andThen (EndAlike.inArena (signed (Int64.ofNat number)))
      intro rule
      exact EndAlike.andThen (EndAlike.inArena (signed 0)) fun level => inserted logical [rule, level]

theorem renamed_rule (clause : Clause) (id : Nat) (purpose : Purpose) (version : Version) :
    EndAlike (· = ·) (lowerRule (plan.rename names) (clause.rename change) id (purpose.rename change) version)
      (lowerRule plan clause id purpose version) := by
  rw [lowerRule, lowerRule]
  apply (renamed_frame injective clause).bind
  rintro _ frame rfl
  have rest (operation : Placed Op) :
      EndAlike (· = ·)
        (do
          let constrained ← addConstraints (plan.rename names) (frame.rename change).sites (clause.rename change).body
            operation
          let aggregated ← addAggregates (plan.rename names) (frame.rename change) constrained
          inArena (query (← addScans version (frame.rename change) aggregated)))
        (do
          let constrained ← addConstraints plan frame.sites clause.body operation
          let aggregated ← addAggregates plan frame constrained
          inArena (query (← addScans version frame aggregated))) := by
    apply (renamed_constraints injective frame.sites clause.body operation).andThen
    intro constrained
    apply (renamed_aggregates injective frame constrained).andThen
    intro aggregated
    exact (renamed_scans injective version frame aggregated).andThen fun scanned => EndAlike.inArena _
  cases purpose with
  | insertion => exact (renamed_insertion injective clause id frame version.isIncremental).andThen rest
  | explanation slots => exact (renamed_answer injective clause frame slots).andThen rest

/-- The text of a clause shows the names, so it must not be asked for. -/
theorem renamed_clause (clause : Clause) (id : Nat) (purpose : Purpose) (version : Version)
    (plain : purpose = .insertion → plan.debugInfo = false) :
    EndAlike (· = ·) (lowerClause (plan.rename names) (clause.rename change) id (purpose.rename change) version)
      (lowerClause plan clause id purpose version) := by
  have untold (statement : Placed Stmt) :
      withClauseText (plan.rename names) (purpose.rename change) (clause.rename change) statement =
        withClauseText plan purpose clause statement := by
    cases purpose with
    | insertion => rw [Purpose.rename, withClauseText, withClauseText, Plan.rename, plain rfl]; rfl
    | explanation slots => rfl
  rw [lowerClause, lowerClause, clause.isFact_rename]
  apply (EndAlike.required _).andThen
  intro _
  simp only [untold]
  split
  · exact (renamed_fact injective clause id).andThen fun statement => EndAlike.inArena _
  · exact (renamed_rule injective clause id purpose version).andThen fun statement => EndAlike.inArena _

theorem renamed_complete (clause : Clause) (id : Nat) (purpose : Purpose)
    (plain : purpose = .insertion → plan.debugInfo = false) :
    EndAlike (· = ·) (lowerComplete (plan.rename names) (clause.rename change) id (purpose.rename change))
      (lowerComplete plan clause id purpose) :=
  (EndAlike.report _ _ _ _).andThen fun _ => renamed_clause injective clause id purpose .complete plain

omit injective in
theorem positionsWithin_rename (clause : Clause) (relations : List Name) :
    positionsWithin (clause.rename change) relations = positionsWithin clause relations := by
  rw [positionsWithin, positionsWithin, clause.positiveAtoms_rename, List.zipIdx_map, List.filter_map, List.map_map]
  rfl

theorem renamed_incremental (plain : plan.debugInfo = false) (clause : Clause) (id : Nat) (stratum : List Name)
    (version : Nat) :
    EndAlike (· = ·) (lowerIncremental (plan.rename names) (clause.rename change) id stratum version .insertion)
      (lowerIncremental plan clause id stratum version .insertion) := by
  rw [lowerIncremental, lowerIncremental, positionsWithin_rename]
  exact (EndAlike.report _ _ _ _).andThen fun _ => renamed_clause injective clause id .insertion _ fun _ => plain

/-! ## Decisions -/

theorem renamed_atomCheck (sites : Sites) (relation : Name) (args : List Argument) :
    EndAlike (· = ·) (atomCheck (plan.rename names) (sites.rename change) relation (Argument.renameAll change args))
      (atomCheck plan sites relation args) := by
  rw [atomCheck, atomCheck]
  apply (EndAlike.required _).andThen
  intro _
  exact ((renamed_values injective sites args).adapt _).andThen fun values =>
    EndAlike.inArena (existenceCheck relation.text values plan.auxiliary)

theorem renamed_decisionCondition (sites : Sites) (literal : Literal) :
    EndAlike (· = ·) (decisionCondition (plan.rename names) (sites.rename change) (literal.rename change))
      (decisionCondition plan sites literal) := by
  have constraint (literal : Literal) :
      EndAlike (· = ·)
        (if (Literal.aggregates (literal.rename change)).isEmpty then do
          let condition ← ExceptT.adapt missingSlotInstead
            (lowerConstraint (plan.rename names) (sites.rename change) (literal.rename change))
          return condition.map fun condition => (condition, true)
        else throw (.unboundAggregate (literal.rename change).text))
        (if (Literal.aggregates literal).isEmpty then do
          let condition ← ExceptT.adapt missingSlotInstead (lowerConstraint plan sites literal)
          return condition.map fun condition => (condition, true)
        else throw (.unboundAggregate literal.text)) := by
    rw [Literal.aggregates_rename, List.isEmpty_map]
    split
    · exact ((renamed_constraint injective sites literal).adapt _).andThen fun condition => EndAlike.pure rfl
    · exact EndAlike.throw _ _
  cases literal with
  | positive relation args =>
      exact (renamed_atomCheck injective sites relation args).andThen fun condition => EndAlike.pure rfl
  | negative relation args =>
      exact (renamed_atomCheck injective sites relation args).andThen fun condition => EndAlike.pure rfl
  | comparison op left right => exact constraint (.comparison op left right)
  | truth value => exact constraint (.truth value)

theorem renamed_decision (clause : Clause) (slots : Slots) :
    EndAlike (· = ·) (lowerDecision (plan.rename names) (clause.rename change) (slots.rename change))
      (lowerDecision plan clause slots) := by
  rw [lowerDecision, lowerDecision, clause.constraintsLast_rename, slots.sites_rename injective,
    Slots.redirectCond_rename]
  refine EndAlike.andThen (EndAlike.filterMapM clause.constraintsLast fun literal => ?_) fun _ => EndAlike.inArena _
  apply (renamed_decisionCondition injective slots.sites literal).andThen
  intro decided
  cases decided with
  | none => exact EndAlike.pure rfl
  | some decided =>
      have redirected : EndAlike (· = ·) (slots.redirectCond decided.1) (slots.redirectCond decided.1) :=
        (EndAlike.tryInArena _).andThen fun _ => (EndAlike.required _).andThen fun _ => EndAlike.pure rfl
      apply redirected.andThen
      intro condition
      exact (EndAlike.inArena (answerEither condition decided.2)).andThen fun branch => EndAlike.pure rfl

end Clauses

/-! ## Programs -/

section Programs

variable {plan : Plan} {names : Nat → String → String}

theorem Plan.clausesOf_rename (name : Name) (recursive : Bool) :
    (plan.rename names).clausesOf name recursive = (plan.clausesOf name recursive).map (renameEntry names) := by
  rw [Plan.clausesOf, Plan.clausesOf, Plan.rename, Program.clausesOf_rename, List.filter_map]
  refine congrArg _ (List.filter_congr fun entry _ => ?_)
  rw [Function.comp_apply, renameEntry, Analysis.isRecursive_rename]

theorem attributeTypes_rename (attributes : List Attribute) :
    attributeTypes (plan.rename names) attributes = attributeTypes plan attributes := by
  induction attributes with
  | nil => rfl
  | cons first rest ih =>
      rw [attributeTypes, attributeTypes, ih]
      rfl

theorem declareRelation_rename (relation : Relation) :
    declareRelation (plan.rename names) relation = declareRelation plan relation := by
  rw [declareRelation, declareRelation]
  simp only [tableFor, attributeTypes_rename]
  rfl

theorem declareRelation_alike (relation : Relation) :
    EndAlike (· = ·) (declareRelation plan relation) (declareRelation plan relation) := by
  rw [declareRelation]
  apply (EndAlike.required _).andThen
  intro table
  apply (EndAlike.declareTable table).andThen
  intro _
  split
  · apply (EndAlike.required _).andThen
    intro delta
    apply (EndAlike.declareTable delta).andThen
    intro _
    exact (EndAlike.required _).andThen EndAlike.declareTable
  · exact EndAlike.pure rfl

theorem clearExpired_alike (strategy : Strategy) (expired : List Name) :
    EndAlike (· = ·) (clearExpired strategy expired) (clearExpired strategy expired) := by
  cases strategy with
  | provenance => exact EndAlike.inArena (Ram.sequence [])
  | seminaive =>
      exact (EndAlike.each expired fun name => (EndAlike.report _ _ _ _).andThen fun _ => EndAlike.inArena _).andThen
        fun clears => EndAlike.inArena (Ram.sequence clears)

variable (injective : ∀ id, Function.Injective (names id)) (plain : plan.debugInfo = false)

include injective plain

theorem renamed_completeClauses (relation : Name) :
    EndAlike (· = ·) (lowerCompleteClauses (plan.rename names) relation) (lowerCompleteClauses plan relation) := by
  rw [lowerCompleteClauses, lowerCompleteClauses, Plan.clausesOf_rename]
  exact EndAlike.mapM (plan.clausesOf relation false) fun entry =>
    renamed_complete (injective entry.2) entry.1 entry.2 .insertion fun _ => plain

theorem renamed_recursiveClauses (stratum : List Name) (relation : Name) :
    EndAlike (· = ·) (lowerRecursiveClauses (plan.rename names) stratum relation)
      (lowerRecursiveClauses plan stratum relation) := by
  rw [lowerRecursiveClauses, lowerRecursiveClauses, Plan.clausesOf_rename]
  refine EndAlike.andThen (EndAlike.mapM (plan.clausesOf relation true) fun entry => ?_) fun queries =>
    EndAlike.pure rfl
  obtain ⟨clause, id⟩ := entry
  change EndAlike _ (List.mapM _ (List.range (positionsWithin (clause.rename (names id)) stratum).length)) _
  rw [positionsWithin_rename]
  exact EndAlike.each _ fun version => renamed_incremental (injective id) plain clause id stratum version

theorem renamed_loop (stratum : List Name) :
    EndAlike (· = ·) (lowerLoop (plan.rename names) stratum) (lowerLoop plan stratum) := by
  rw [lowerLoop, lowerLoop]
  apply (EndAlike.each stratum (renamed_recursiveClauses injective plain stratum)).andThen
  intro queries
  apply (EndAlike.each stratum fun relation => EndAlike.inArena (placeCond (.isEmpty (freshName relation)))).andThen
  intro empty
  apply (EndAlike.inArena (conjunction empty)).andThen
  intro condition
  apply EndAlike.andThen (EndAlike.inArena (placeStmt (.exit condition)))
  intro exit
  apply (EndAlike.each stratum fun relation => EndAlike.inArena (advance relation)).andThen
  intro advances
  exact (EndAlike.inArena (Ram.sequence _)).andThen fun body => EndAlike.inArena (placeStmt (.loop body))

theorem renamed_stratum (position : Nat) (stratum : Analysis.Stratum) :
    EndAlike (· = ·) (lowerStratum (plan.rename names) position stratum) (lowerStratum plan position stratum) := by
  rw [lowerStratum, lowerStratum]
  apply (EndAlike.report _ _ _ _).andThen
  intro _
  apply (EndAlike.each stratum.relations (renamed_completeClauses injective plain)).andThen
  intro queries
  split
  · apply (EndAlike.each stratum.relations fun relation =>
      EndAlike.inArena (placeStmt (.merge relation.text (deltaName relation)))).andThen
    intro seeds
    apply (renamed_loop injective plain stratum.relations).andThen
    intro loop
    exact (EndAlike.each stratum.relations fun relation => EndAlike.inArena (clearRounds relation)).andThen
      fun clears => EndAlike.inArena (Ram.sequence _)
  · exact EndAlike.inArena (Ram.sequence queries.flatten)

theorem renamed_evaluation :
    EndAlike (· = ·) (lowerEvaluation (plan.rename names)) (lowerEvaluation plan) := by
  rw [lowerEvaluation, lowerEvaluation]
  rw [funext declareRelation_rename]
  apply (EndAlike.forM plan.program.relations declareRelation_alike).andThen
  intro _
  refine EndAlike.andThen (EndAlike.each plan.strata.zipIdx fun entry => ?_) fun strata =>
    EndAlike.inArena (Ram.sequence strata)
  apply (renamed_stratum injective plain entry.2 entry.1).andThen
  intro evaluation
  exact (clearExpired_alike plan.strategy _).andThen fun clear => EndAlike.inArena (Ram.sequence [evaluation, clear])

omit injective plain in
/-- The plan of a renamed program is the renamed plan. -/
theorem Plan.of_rename (program : Program) (strategy : Strategy) (debugInfo : Bool) :
    Plan.of (program.rename names) strategy debugInfo =
      (Plan.of program strategy debugInfo).map (Plan.rename names) := by
  rw [Plan.of, Plan.of]
  simp only [Analysis.strata_rename, Analysis.schedule_rename]
  rw [show (program.rename names).types = program.types from rfl]
  cases Analysis.resolveTypes program.types <;> rfl

omit plain in
theorem renamed_lowering (program : Program) :
    EndAlike (· = ·) (lowering (program.rename names) .seminaive false) (lowering program .seminaive false) := by
  have planned :
      EndAlike (fun renamed plan => renamed = plan.rename names ∧ plan.strategy = .seminaive ∧ plan.debugInfo = false)
        (planProgram (program.rename names) .seminaive false) (planProgram program .seminaive false) := by
    rw [planProgram, planProgram, Plan.of_rename, Plan.of]
    apply (EndAlike.report _ _ _ _).andThen
    intro _
    cases Analysis.resolveTypes program.types with
    | error error => exact EndAlike.throw _ _
    | ok kinds => exact (EndAlike.report _ _ _ _).andThen fun _ => EndAlike.pure ⟨rfl, rfl, rfl⟩
  apply planned.bind
  rintro _ plan ⟨rfl, strategy, plain⟩
  rw [lowerUnit, lowerUnit, Plan.strategy_rename, strategy]
  exact renamed_evaluation injective plain

end Programs

/-- Code that ends alike and is finished to the same program. -/
theorem EndAlike.finished {first second : Lower (Placed Stmt)} (alike : EndAlike (· = ·) first second) (start : Draft) :
    ((outcome first start).1.map (outcome first start).2.finish).toOption =
      ((outcome second start).1.map (outcome second start).2.finish).toOption := by
  obtain ⟨results, same⟩ := alike start start ⟨rfl, rfl, rfl, rfl⟩
  have finish : (outcome first start).2.finish = (outcome second start).2.finish := by
    funext main
    rw [Draft.finish, Draft.finish, same.arena, same.symbols, same.tables, same.subroutines]
  rw [finish]
  revert results
  generalize (outcome first start).1 = one
  generalize (outcome second start).1 = other
  intro results
  cases one with
  | error error =>
      cases other with
      | error error' => rfl
      | ok main => cases results
  | ok main =>
      cases other with
      | error error => cases results
      | ok other =>
          cases results with
          | some isSame => rw [isSame]

/-! ## Renaming clause by clause -/

section Choices

variable {program : Program} {change : Nat → String → String}

/-- Permutations of all names that rename the clauses of a program in the same way. -/
theorem exists_permutations
    (admissible : ∀ id clause, program.clauses[id]? = some clause → Admissible (change id) clause) :
    ∃ names : Nat → Equiv.Perm String, ∀ id clause, program.clauses[id]? = some clause →
      ∀ name ∈ clauseVariables clause, change id name = names id name := by
  have each (id : Nat) : ∃ permutation : Equiv.Perm String, ∀ clause, program.clauses[id]? = some clause →
      ∀ name ∈ clauseVariables clause, change id name = permutation name := by
    cases isClause : program.clauses[id]? with
    | none => exact ⟨1, fun clause isSome => nomatch isSome⟩
    | some clause =>
        obtain ⟨permutation, same⟩ := (admissible id clause isClause).exists_permutation
        refine ⟨permutation, fun other isSame name member => ?_⟩
        cases isSame
        exact (same name member).symm
  choose names same using each
  exact ⟨names, same⟩

theorem program_rename_congr {other : Nat → String → String}
    (same : ∀ id clause, program.clauses[id]? = some clause →
      ∀ name ∈ clauseVariables clause, change id name = other id name) :
    program.rename change = program.rename other := by
  refine congrArg (fun clauses => { program with clauses := clauses }) (List.ext_getElem? fun id => ?_)
  rw [List.getElem?_mapIdx, List.getElem?_mapIdx]
  cases isClause : program.clauses[id]? with
  | none => rfl
  | some clause => exact congrArg some (clause_rename_congr (same id clause isClause))

end Choices

end Lowering

open Lowering

variable {program : Program} {change : Nat → String → String}

/-- The variables of each clause may be given other names, as long as different names stay different and the names
for unnamed positions and for levels stay such names. Then the code of the program is the same, or it is refused as
before. The slots of a renamed clause are the renamed slots under the same numbers, and under any plan its explanation
and its decisions are lowered to the same code. -/
theorem renaming_keeps_code
    (admissible : ∀ id clause, program.clauses[id]? = some clause → Admissible (change id) clause) :
    (lowerProgram (program.rename change) .seminaive false).result.toOption =
        (lowerProgram program .seminaive false).result.toOption ∧
      ∀ id clause, program.clauses[id]? = some clause →
        Slots.ofClause (clause.rename (change id)) = (Slots.ofClause clause).rename (change id) ∧
          (∀ name ∈ clauseVariables clause,
            (Slots.ofClause (clause.rename (change id))).slot? (change id name) = (Slots.ofClause clause).slot? name) ∧
          ∀ strategy debugInfo plan, Plan.of program strategy debugInfo = .ok plan →
            Plan.of (program.rename change) strategy debugInfo = .ok (plan.rename change) ∧
              EndAlike (· = ·)
                (lowerComplete (plan.rename change) (clause.rename (change id)) id
                  (.explanation (Slots.ofClause (clause.rename (change id)))))
                (lowerComplete plan clause id (.explanation (Slots.ofClause clause))) ∧
              EndAlike (· = ·)
                (lowerDecision (plan.rename change) (clause.rename (change id))
                  (Slots.ofClause (clause.rename (change id))))
                (lowerDecision plan clause (Slots.ofClause clause)) := by
  -- `change` may confuse names that a clause does not use. A permutation commutes with every lookup.
  obtain ⟨names, same⟩ := exists_permutations admissible
  have injective (id : Nat) : Function.Injective (names id) := (names id).injective
  have renamedProgram : program.rename change = program.rename fun id => names id := program_rename_congr same
  refine ⟨?_, fun id clause isClause => ?_⟩
  · rw [renamedProgram, lowerProgram_result, lowerProgram_result]
    exact (renamed_lowering injective program).finished .empty
  have renamedClause : clause.rename (change id) = clause.rename (names id) :=
    clause_rename_congr (same id clause isClause)
  have permutes : Admissible (names id) clause := (admissible id clause isClause).congr (same id clause isClause)
  refine ⟨(admissible id clause isClause).ofClause_rename, fun name member => ?_,
    fun strategy debugInfo plan planned => ⟨?_, ?_⟩⟩
  · rw [renamedClause, permutes.ofClause_rename, same id clause isClause name member, Slots.slot?_rename (injective id)]
  · rw [Plan.of_rename, planned]
    rfl
  have renamedPlan : plan.rename change = plan.rename fun id => names id := by
    obtain ⟨_, rfl, _⟩ := scheduled_of planned
    rw [Plan.rename, Plan.rename, renamedProgram]
  rw [renamedPlan, renamedClause, permutes.ofClause_rename]
  exact ⟨renamed_complete (injective id) clause id (.explanation (Slots.ofClause clause)) (by rintro ⟨⟩),
    renamed_decision (injective id) clause (Slots.ofClause clause)⟩

/-- The rows that sell at least two seats, as far as they are open. Within the aggregate `seat` is a local name. -/
def crowdedRow : Clause :=
  ⟨⟨⟨["crowded"]⟩, [.var "row"]⟩,
    [.positive ⟨["sold"]⟩ [.var "row", .var "+underscore0"],
      .comparison .le (.constant (.number 2))
        (.aggregate .count none [.positive ⟨["sold"]⟩ [.var "row", .var "seat"]]),
      .negative ⟨["closed"]⟩ [.var "row"]]⟩

def quietRow : Clause :=
  ⟨⟨⟨["closed"]⟩, [.var "row"]⟩, [.positive ⟨["quiet"]⟩ [.var "row", .var "seat"]]⟩

def theatre : Program where
  types := []
  relations :=
    [⟨⟨["sold"]⟩, [⟨"a", ⟨["number"]⟩⟩, ⟨"b", ⟨["number"]⟩⟩], .standard, [.input]⟩,
      ⟨⟨["quiet"]⟩, [⟨"a", ⟨["number"]⟩⟩, ⟨"b", ⟨["number"]⟩⟩], .standard, [.input]⟩,
      ⟨⟨["closed"]⟩, [⟨"a", ⟨["number"]⟩⟩], .standard, []⟩,
      ⟨⟨["crowded"]⟩, [⟨"a", ⟨["number"]⟩⟩], .standard, [.output]⟩]
  clauses := [crowdedRow, quietRow]

/-- In the first clause the names trade places and the unnamed position is numbered differently. In the second one the
row gets the name of the local variable of the first. -/
def otherNames (id : Nat) (name : String) : String :=
  if name = "row" then "seat"
  else if name = "seat" then (if id = 0 then "row" else "place")
  else if name = "+underscore0" then "+underscore_7"
  else name

theorem admissible_otherNames (id : Nat) (clause : Clause) (isClause : theatre.clauses[id]? = some clause) :
    Admissible (otherNames id) clause := by
  match id with
  | 0 =>
      cases isClause
      exact ⟨by decide +kernel, by decide +kernel, by decide +kernel⟩
  | 1 =>
      cases isClause
      exact ⟨by decide +kernel, by decide +kernel, by decide +kernel⟩

theorem renaming_keeps_code_theatre :
    (theatre.rename otherNames).clauses ≠ theatre.clauses ∧
      (lowerProgram theatre .seminaive false).result.isOk ∧
      (lowerProgram (theatre.rename otherNames) .seminaive false).result.toOption =
        (lowerProgram theatre .seminaive false).result.toOption ∧
      (Slots.ofClause (crowdedRow.rename (otherNames 0))).names = ["seat", "row", "+underscore_7"] ∧
      (Slots.ofClause (crowdedRow.rename (otherNames 0))).slot? "row" = (Slots.ofClause crowdedRow).slot? "seat" ∧
      ∃ plan, Plan.of theatre .provenance false = .ok plan ∧
        EndAlike (· = ·)
          (lowerDecision (plan.rename otherNames) (crowdedRow.rename (otherNames 0))
            (Slots.ofClause (crowdedRow.rename (otherNames 0))))
          (lowerDecision plan crowdedRow (Slots.ofClause crowdedRow)) := by
  obtain ⟨same, clauses⟩ := @renaming_keeps_code theatre otherNames admissible_otherNames
  obtain ⟨slots, numbers, explained⟩ := clauses 0 crowdedRow rfl
  obtain ⟨plan, planned⟩ : ∃ plan, Plan.of theatre .provenance false = .ok plan := ⟨_, rfl⟩
  obtain ⟨_, _, decided⟩ := explained .provenance false plan planned
  refine ⟨by decide +kernel, by decide +kernel, same, ?_, numbers "seat" (by decide +kernel), plan, planned, decided⟩
  rw [slots]
  decide +kernel

end DatalogRam
