import DatalogRam.Proofs.Lowering.Frame
import DatalogRam.Proofs.Lowering.ProgramCode

/-!
# Both strategies write the same symbols

Lowering interns the texts of a program in the order in which it meets them, and the strategy changes nothing of
this order. So a text has the same ordinal in the evaluation code of both strategies.
-/

namespace DatalogRam.Lowering

open Ram

variable {α β γ δ ε : Type}

/-- Code that leaves the symbols as they are. -/
def Silent (code : Lower α) : Prop :=
  ∀ draft, (outcome code draft).2.symbols = draft.symbols

/-- Codes that lead from the same symbols to the same symbols, where both of them give a result. -/
def Alike (code : Lower α) (other : Lower β) : Prop :=
  ∀ draft draft' a after b after', draft.symbols = draft'.symbols → outcome code draft = (.ok a, after) →
    outcome other draft' = (.ok b, after') → after.symbols = after'.symbols

namespace Silent

theorem pure (a : α) : Silent (pure a : Lower α) := fun _ => rfl

theorem throw (error : LoweringError) : Silent (throw error : Lower α) := fun _ => rfl

theorem inArena (build : Build α) : Silent (inArena build) := fun _ => rfl

theorem report (level : Level) (message : String) (fields : List (String × String)) :
    Silent (report level message fields) := fun _ => rfl

theorem declareTable (table : Table) : Silent (declareTable table) := by
  intro draft
  change Draft.symbols (if _ then _ else _) = _
  split <;> rfl

theorem lift (result : Except LoweringError α) : Silent (liftExcept result : Lower α) := by
  cases result with
  | ok a => exact pure a
  | error error => exact throw error

theorem bind {code : Lower α} {next : α → Lower β} (first : Silent code) (second : ∀ a, Silent (next a)) :
    Silent (code >>= next) := by
  intro draft
  have before := first draft
  rw [outcome_bind]
  cases ran : outcome code draft with
  | mk result after =>
      rw [ran] at before
      cases result with
      | ok a => exact (second a after).trans before
      | error error => exact before

theorem mapM {code : γ → Lower α} (elements : List γ) (each : ∀ element ∈ elements, Silent (code element)) :
    Silent (elements.mapM code) := by
  induction elements with
  | nil => exact pure []
  | cons element rest ih =>
      rw [List.mapM_cons]
      refine (each element List.mem_cons_self).bind fun a => ?_
      exact (ih fun other member => each other (List.mem_cons_of_mem _ member)).bind fun more => pure (a :: more)

theorem forM {code : γ → Lower Unit} (elements : List γ) (each : ∀ element ∈ elements, Silent (code element)) :
    Silent (elements.forM code) := by
  induction elements with
  | nil => exact pure ()
  | cons element rest ih =>
      exact (each element List.mem_cons_self).bind fun _ =>
        ih fun other member => each other (List.mem_cons_of_mem _ member)

end Silent

namespace Alike

theorem of_silent {code : Lower α} {other : Lower β} (silent : Silent code) (alsoSilent : Silent other) :
    Alike code other := by
  intro draft draft' a after b after' same ran ran'
  have first := silent draft
  have second := alsoSilent draft'
  rw [ran] at first
  rw [ran'] at second
  exact first.trans (same.trans second.symm)

theorem bind {code : Lower α} {other : Lower β} {next : α → Lower γ} {next' : β → Lower δ}
    (first : Alike code other) (second : ∀ a b, Alike (next a) (next' b)) :
    Alike (code >>= next) (other >>= next') := by
  intro draft draft' c last d last' same ran ran'
  obtain ⟨a, after, isFirst, rest⟩ := of_outcome_bind ran
  obtain ⟨b, after', isFirst', rest'⟩ := of_outcome_bind ran'
  exact second a b after after' c last d last' (first draft draft' a after b after' same isFirst isFirst') rest rest'

/-- What follows changes no symbols. -/
theorem andSilent {code : Lower α} {other : Lower β} {next : α → Lower γ} {next' : β → Lower δ}
    (first : Alike code other) (silent : ∀ a, Silent (next a)) (alsoSilent : ∀ b, Silent (next' b)) :
    Alike (code >>= next) (other >>= next') :=
  first.bind fun a b => of_silent (silent a) (alsoSilent b)

theorem encodeSymbol (text : String) : Alike (encodeSymbol text) (encodeSymbol text) := by
  intro draft draft' a after b after' same ran ran'
  have first : after.symbols = (draft.symbols.encode text).2 := by
    cases ran
    rfl
  have second : after'.symbols = (draft'.symbols.encode text).2 := by
    cases ran'
    rfl
  rw [first, second, same]

theorem mapM {code : γ → Lower α} {other : γ → Lower β} (elements : List γ)
    (each : ∀ element ∈ elements, Alike (code element) (other element)) :
    Alike (elements.mapM code) (elements.mapM other) := by
  induction elements with
  | nil => exact of_silent (Silent.pure _) (Silent.pure _)
  | cons element rest ih =>
      rw [List.mapM_cons, List.mapM_cons]
      refine (each element List.mem_cons_self).bind fun a b => ?_
      exact (ih fun other member => each other (List.mem_cons_of_mem _ member)).andSilent
        (fun _ => Silent.pure _) fun _ => Silent.pure _

theorem filterMapM {code : γ → Lower (Option α)} {other : γ → Lower (Option β)} (elements : List γ)
    (each : ∀ element ∈ elements, Alike (code element) (other element)) :
    Alike (elements.filterMapM code) (elements.filterMapM other) := by
  induction elements with
  | nil => exact of_silent (Silent.pure _) (Silent.pure _)
  | cons element rest ih =>
      rw [List.filterMapM_cons, List.filterMapM_cons]
      have others := ih fun other member => each other (List.mem_cons_of_mem _ member)
      refine (each element List.mem_cons_self).bind fun found found' => ?_
      cases found with
      | none =>
          cases found' with
          | none => exact others
          | some b =>
              rw [← bind_pure (rest.filterMapM code)]
              exact others.andSilent (fun _ => Silent.pure _) fun _ => Silent.pure _
      | some a =>
          cases found' with
          | none =>
              rw [← bind_pure (rest.filterMapM other)]
              exact others.andSilent (fun _ => Silent.pure _) fun _ => Silent.pure _
          | some b => exact others.andSilent (fun _ => Silent.pure _) fun _ => Silent.pure _

theorem foldrM {code : γ → α → Lower α} {other : γ → β → Lower β} (elements : List γ)
    (each : ∀ element ∈ elements, ∀ a b, Alike (code element a) (other element b)) (a : α) (b : β) :
    Alike (elements.foldrM code a) (elements.foldrM other b) := by
  induction elements with
  | nil => exact of_silent (Silent.pure _) (Silent.pure _)
  | cons element rest ih =>
      rw [List.foldrM_cons, List.foldrM_cons]
      exact (ih fun other member => each other (List.mem_cons_of_mem _ member)).bind
        (each element List.mem_cons_self)

end Alike

/-! ## The lowering of clauses -/

theorem alike_constant (value : Constant) : Alike (lowerConstant value) (lowerConstant value) := by
  cases value with
  | string text => exact (Alike.encodeSymbol text).andSilent (fun _ => Silent.inArena _) fun _ => Silent.inArena _
  | number value => exact Alike.of_silent (Silent.inArena _) (Silent.inArena _)
  | unsigned value => exact Alike.of_silent (Silent.inArena _) (Silent.inArena _)
  | float value => exact Alike.of_silent (Silent.inArena _) (Silent.inArena _)
  | nil => exact Alike.of_silent (Silent.inArena _) (Silent.inArena _)

theorem silent_site (found : Option Site) (error : LoweringError) :
    Silent (match found with
      | some site => inArena (readSite site)
      | none => throw error : Lower (Placed Expr)) := by
  cases found with
  | none => exact Silent.throw error
  | some site => exact Silent.inArena _

mutual

theorem alike_value (sites : Sites) : ∀ arg : Argument, Alike (lowerValue sites arg) (lowerValue sites arg)
  | .var name => by
      rw [lowerValue]
      exact Alike.of_silent (silent_site _ _) (silent_site _ _)
  | .unnamed => by
      rw [lowerValue]
      exact Alike.of_silent (Silent.inArena _) (Silent.inArena _)
  | .constant value => by
      rw [lowerValue]
      exact alike_constant value
  | .operator op args => by
      rw [lowerValue]
      exact (alike_values sites args).andSilent (fun _ => Silent.inArena _) fun _ => Silent.inArena _
  | .external name args => by
      rw [lowerValue]
      exact (alike_values sites args).andSilent (fun _ => Silent.inArena _) fun _ => Silent.inArena _
  | .aggregate function target body => by
      rw [lowerValue]
      exact Alike.of_silent (silent_site _ _) (silent_site _ _)
  | .record args => by
      rw [lowerValue]
      exact (alike_values sites args).andSilent (fun _ => Silent.inArena _) fun _ => Silent.inArena _
  | .counter => by
      rw [lowerValue]
      exact Alike.of_silent (Silent.inArena _) (Silent.inArena _)

theorem alike_values (sites : Sites) :
    ∀ args : List Argument, Alike (lowerValues sites args) (lowerValues sites args)
  | [] => by
      rw [lowerValues]
      exact Alike.of_silent (Silent.pure _) (Silent.pure _)
  | arg :: args => by
      rw [lowerValues]
      refine (alike_value sites arg).bind fun _ _ => ?_
      exact (alike_values sites args).andSilent (fun _ => Silent.pure _) fun _ => Silent.pure _

end

variable {plan other : Plan} {clause : Clause} {id : Nat} {version : Version}

theorem alike_constraint (sites : Sites) (literal : Literal) :
    Alike (lowerConstraint plan sites literal) (lowerConstraint other sites literal) := by
  cases literal with
  | positive relation args => exact Alike.of_silent (Silent.pure _) (Silent.pure _)
  | negative relation args =>
      refine (Alike.of_silent (Silent.lift _) (Silent.lift _)).bind fun _ _ => ?_
      refine (alike_values sites args).andSilent (fun _ => ?_) fun _ => ?_
      · exact (Silent.inArena _).bind fun _ => (Silent.inArena _).bind fun _ => Silent.pure _
      · exact (Silent.inArena _).bind fun _ => (Silent.inArena _).bind fun _ => Silent.pure _
  | comparison op left right =>
      refine (alike_value sites left).bind fun _ _ => ?_
      refine (alike_value sites right).andSilent (fun _ => ?_) fun _ => ?_
      · exact (Silent.inArena _).bind fun _ => Silent.pure _
      · exact (Silent.inArena _).bind fun _ => Silent.pure _
  | truth value =>
      cases value with
      | true =>
          exact Alike.of_silent ((Silent.inArena _).bind fun _ => Silent.pure _)
            ((Silent.inArena _).bind fun _ => Silent.pure _)
      | false =>
          exact Alike.of_silent ((Silent.inArena _).bind fun _ => Silent.pure _)
            ((Silent.inArena _).bind fun _ => Silent.pure _)

/-- The bookkeeping of either strategy changes no symbols. -/
theorem silent_byStrategy (plan : Plan) {level : Build (Placed Expr)}
    {next : List (Placed Expr) → Lower α} (silent : ∀ auxiliary, Silent (next auxiliary)) :
    Silent (match plan.strategy with
      | .seminaive => do
          let auxiliary ← pure []
          next auxiliary
      | .provenance => do
          let number ← liftExcept (plan.clauseNumber clause id)
          let rule ← inArena (signed (Int64.ofNat number))
          let level ← inArena level
          let auxiliary ← pure [rule, level]
          next auxiliary) := by
  cases plan.strategy with
  | seminaive => exact silent []
  | provenance =>
      exact (Silent.lift _).bind fun _ => (Silent.inArena _).bind fun _ => (Silent.inArena _).bind fun _ =>
        silent _

theorem alike_insertion (frame : Frame) (incremental : Bool) :
    Alike (lowerInsertion plan clause id frame incremental) (lowerInsertion other clause id frame incremental) := by
  rw [lowerInsertion, lowerInsertion]
  refine (alike_values frame.sites clause.head.args).andSilent (fun _ => ?_) fun _ => ?_
  · exact silent_byStrategy plan fun _ => Silent.inArena _
  · exact silent_byStrategy other fun _ => Silent.inArena _

theorem alike_fact : Alike (lowerFact plan clause id) (lowerFact other clause id) := by
  have silent (plan : Plan) (logical auxiliary : List (Placed Expr)) :
      Silent (do inArena (query (← inArena (insertGuarded plan clause.head logical auxiliary false)))) :=
    (Silent.inArena _).bind fun _ => Silent.inArena _
  rw [lowerFact, lowerFact]
  refine (alike_values .empty clause.head.args).andSilent (fun _ => ?_) fun _ => ?_
  · exact silent_byStrategy plan fun _ => silent plan _ _
  · exact silent_byStrategy other fun _ => silent other _ _

theorem silent_underCondition (condition : Option (Placed Cond)) (operation : Placed Op) :
    Silent (match condition with
      | some condition => inArena (filter condition operation)
      | none => pure operation : Lower (Placed Op)) := by
  cases condition with
  | none => exact Silent.pure _
  | some condition => exact Silent.inArena _

theorem alike_constrained (sites : Sites) (body : List Literal) (operation operation' : Placed Op) :
    Alike (addConstraints plan sites body operation) (addConstraints other sites body operation') := by
  refine Alike.foldrM body (fun literal _ _ _ => ?_) operation operation'
  exact (alike_constraint sites literal).andSilent (fun _ => silent_underCondition _ _) fun _ => silent_underCondition _ _

theorem alike_matchBody (sites : Sites) (tuple : Nat) (arg : Argument) (column : Nat) :
    Alike (matchBodyArgument sites tuple arg column) (matchBodyArgument sites tuple arg column) := by
  have compared : Alike
      (do
        let value ← lowerValue sites arg
        let here ← inArena (placeExpr (.element tuple column))
        return some (← inArena (compareEqual here value)) : Lower (Option (Placed Cond)))
      (do
        let value ← lowerValue sites arg
        let here ← inArena (placeExpr (.element tuple column))
        return some (← inArena (compareEqual here value)) : Lower (Option (Placed Cond))) := by
    refine (alike_value sites arg).andSilent (fun _ => ?_) fun _ => ?_
    · exact (Silent.inArena _).bind fun _ => (Silent.inArena _).bind fun _ => Silent.pure _
    · exact (Silent.inArena _).bind fun _ => (Silent.inArena _).bind fun _ => Silent.pure _
  unfold matchBodyArgument
  split
  all_goals
    dsimp only
    split
    · exact Alike.of_silent (Silent.pure _) (Silent.pure _)
    · exact compared

theorem alike_scan (sites : Sites) (atom : Atom) (tuple : Nat) (operation operation' : Placed Op) :
    Alike (addScan version sites atom tuple operation) (addScan version sites atom tuple operation') := by
  have silent (conditions : List (Placed Cond)) (operation : Placed Op) (table : String) :
      Silent (if conditions.isEmpty then do
          let nested ← pure operation
          inArena (placeOp (.scan table tuple nested))
        else do
          let condition ← inArena (conjunction conditions)
          let nested ← inArena (filter condition operation)
          inArena (placeOp (.scan table tuple nested)) : Lower (Placed Op)) := by
    split
    · exact (Silent.pure operation).bind fun _ => Silent.inArena _
    · exact (Silent.inArena _).bind fun _ => (Silent.inArena _).bind fun _ => Silent.inArena _
  refine Alike.andSilent ?_ (fun _ => silent _ _ _) fun _ => silent _ _ _
  exact Alike.filterMapM _ fun entry _ => alike_matchBody sites tuple entry.1 entry.2

theorem frameOf_congr (same : other.program = plan.program) : frameOf other clause = frameOf plan clause := by
  rw [frameOf, frameOf]
  simp only [Plan.requireRelation, same]

theorem alike_rule (same : other.program = plan.program) (simple : clause.Simple) :
    Alike (lowerRule plan clause id .insertion version) (lowerRule other clause id .insertion version) := by
  have found : (frameOf plan clause).toOption = _ := frameOf_simple simple
  rw [lowerRule, lowerRule, frameOf_congr same]
  cases isFrame : frameOf plan clause with
  | error error => exact Alike.of_silent (Silent.throw error) (Silent.throw error)
  | ok frame =>
      rw [isFrame] at found
      have none : frame = simpleFrame clause := by
        split at found
        · exact Option.some.inj found
        · cases found
      subst none
      change Alike
        (do
          let middle ← lowerInsertion plan clause id (simpleFrame clause) version.isIncremental
          let constrained ← addConstraints plan (simpleFrame clause).sites clause.body middle
          inArena (query (← addScans version (simpleFrame clause) constrained)))
        (do
          let middle ← lowerInsertion other clause id (simpleFrame clause) version.isIncremental
          let constrained ← addConstraints other (simpleFrame clause).sites clause.body middle
          inArena (query (← addScans version (simpleFrame clause) constrained)))
      refine (alike_insertion (simpleFrame clause) version.isIncremental).bind fun _ _ => ?_
      refine (alike_constrained (simpleFrame clause).sites clause.body _ _).bind fun _ _ => ?_
      refine Alike.andSilent ?_ (fun _ => Silent.inArena _) fun _ => Silent.inArena _
      exact Alike.foldrM _ (fun entry _ _ _ => alike_scan _ entry.1 entry.2 _ _) _ _

theorem alike_clause (same : other.program = plan.program) (simple : clause.Simple) :
    Alike (lowerClause plan clause id .insertion version) (lowerClause other clause id .insertion version) := by
  rw [lowerClause, lowerClause]
  refine (Alike.of_silent (Silent.lift _) (Silent.lift _)).bind fun _ _ => ?_
  split
  · exact alike_fact.andSilent (fun _ => Silent.inArena _) fun _ => Silent.inArena _
  · exact (alike_rule same simple).andSilent (fun _ => Silent.inArena _) fun _ => Silent.inArena _

/-! ## The lowering of strata -/

theorem clausesOf_congr (same : other.program = plan.program) (name : Name) (recursive : Bool) :
    other.clausesOf name recursive = plan.clausesOf name recursive := by
  rw [Plan.clausesOf, Plan.clausesOf, same]

theorem simple_of_mem (simple : ∀ clause ∈ plan.program.clauses, clause.Simple) {name : Name} {recursive : Bool}
    {entry : Clause × Nat} (member : entry ∈ plan.clausesOf name recursive) : entry.1.Simple := by
  rw [Plan.clausesOf] at member
  exact simple _ (List.mem_of_getElem? (Program.mem_clausesOf.1 (List.mem_filter.1 member).1).1)

theorem alike_completeClauses (same : other.program = plan.program)
    (simple : ∀ clause ∈ plan.program.clauses, clause.Simple) (relation : Name) :
    Alike (lowerCompleteClauses plan relation) (lowerCompleteClauses other relation) := by
  rw [lowerCompleteClauses, lowerCompleteClauses, clausesOf_congr same]
  refine Alike.mapM _ fun entry member => ?_
  exact (Alike.of_silent (Silent.report _ _ _) (Silent.report _ _ _)).bind fun _ _ =>
    alike_clause same (simple_of_mem simple member)

theorem alike_recursiveClauses (same : other.program = plan.program)
    (simple : ∀ clause ∈ plan.program.clauses, clause.Simple) (stratum : List Name) (relation : Name) :
    Alike (lowerRecursiveClauses plan stratum relation) (lowerRecursiveClauses other stratum relation) := by
  rw [lowerRecursiveClauses, lowerRecursiveClauses, clausesOf_congr same]
  refine Alike.andSilent (Alike.mapM _ fun entry member => Alike.mapM _ fun version _ => ?_)
    (fun _ => Silent.pure _) fun _ => Silent.pure _
  exact (Alike.of_silent (Silent.report _ _ _) (Silent.report _ _ _)).bind fun _ _ =>
    alike_clause same (simple_of_mem simple member)

theorem alike_loop (same : other.program = plan.program)
    (simple : ∀ clause ∈ plan.program.clauses, clause.Simple) (stratum : List Name) :
    Alike (lowerLoop plan stratum) (lowerLoop other stratum) := by
  have silent (queries : List (List (Placed Stmt))) :
      Silent (do
        let empty ← stratum.mapM fun relation => inArena (placeCond (.isEmpty (freshName relation)))
        let condition ← inArena (conjunction empty)
        let exit ← inArena (placeStmt (.exit condition))
        let advances ← stratum.mapM fun relation => inArena (advance relation)
        let body ← inArena (sequence (queries.flatten ++ [exit] ++ advances.flatten))
        inArena (placeStmt (.loop body))) :=
    (Silent.mapM _ fun _ _ => Silent.inArena _).bind fun _ => (Silent.inArena _).bind fun _ =>
      (Silent.inArena _).bind fun _ => (Silent.mapM _ fun _ _ => Silent.inArena _).bind fun _ =>
        (Silent.inArena _).bind fun _ => Silent.inArena _
  exact (Alike.mapM _ fun relation _ => alike_recursiveClauses same simple stratum relation).andSilent
    silent silent

theorem alike_stratum (same : other.program = plan.program)
    (simple : ∀ clause ∈ plan.program.clauses, clause.Simple) (position : Nat) (stratum : Analysis.Stratum) :
    Alike (lowerStratum plan position stratum) (lowerStratum other position stratum) := by
  rw [lowerStratum, lowerStratum]
  refine (Alike.of_silent (Silent.report _ _ _) (Silent.report _ _ _)).bind fun _ _ => ?_
  refine (Alike.mapM _ fun relation _ => alike_completeClauses same simple relation).bind fun _ _ => ?_
  split
  · have seeds : Silent (stratum.relations.mapM fun relation =>
        inArena (placeStmt (.merge relation.text (deltaName relation)))) :=
      Silent.mapM _ fun _ _ => Silent.inArena _
    refine (Alike.of_silent seeds seeds).bind fun _ _ => ?_
    refine (alike_loop same simple stratum.relations).andSilent (fun _ => ?_) fun _ => ?_
    · exact (Silent.mapM _ fun _ _ => Silent.inArena _).bind fun _ => Silent.inArena _
    · exact (Silent.mapM _ fun _ _ => Silent.inArena _).bind fun _ => Silent.inArena _
  · exact Alike.of_silent (Silent.inArena _) (Silent.inArena _)

theorem silent_clearExpired (strategy : Strategy) (expired : List Name) :
    Silent (clearExpired strategy expired) := by
  cases strategy with
  | seminaive =>
      exact (Silent.mapM _ fun name _ => (Silent.report _ _ _).bind fun _ => Silent.inArena _).bind fun _ =>
        Silent.inArena _
  | provenance => exact Silent.inArena _

theorem silent_declareRelation (relation : Relation) : Silent (declareRelation plan relation) := by
  rw [declareRelation]
  refine (Silent.lift _).bind fun _ => (Silent.declareTable _).bind fun _ => ?_
  split
  · exact (Silent.lift _).bind fun _ => (Silent.declareTable _).bind fun _ => (Silent.lift _).bind fun _ =>
      Silent.declareTable _
  · exact Silent.pure _

/-- The evaluation code of two plans of one program is written with the same symbols. -/
theorem alike_evaluation (same : other.program = plan.program) (sameStrata : other.strata = plan.strata)
    (simple : ∀ clause ∈ plan.program.clauses, clause.Simple) :
    Alike (lowerEvaluation plan) (lowerEvaluation other) := by
  rw [lowerEvaluation, lowerEvaluation, same, sameStrata]
  refine (Alike.of_silent (Silent.forM _ fun relation _ => silent_declareRelation relation)
    (Silent.forM _ fun relation _ => silent_declareRelation relation)).bind fun _ _ => ?_
  refine Alike.andSilent (Alike.mapM _ fun entry _ => ?_) (fun _ => Silent.inArena _) fun _ => Silent.inArena _
  refine (alike_stratum same simple entry.2 entry.1).andSilent (fun _ => ?_) fun _ => ?_
  · exact (silent_clearExpired _ _).bind fun _ => Silent.inArena _
  · exact (silent_clearExpired _ _).bind fun _ => Silent.inArena _

end DatalogRam.Lowering
