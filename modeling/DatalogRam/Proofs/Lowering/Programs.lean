import DatalogRam.Proofs.Lowering.ExplanationWriting
import DatalogRam.Proofs.Lowering.ProgramCode

/-!
# Lowered programs

What is known of the result of `lowerProgram`: the tree of its main statement and, under provenance, those of the
subroutines that derive rows. The ordinals are those of the symbols with which the program starts.
-/

namespace DatalogRam.Lowering

open Ram

section Code

variable (ordinal : String → Int64) (plan : Plan)

/-- The row of an info relation. -/
def infoRow (number : Nat) (description : Description) : List Int64 :=
  Int64.ofNat number :: (description.head :: description.literals).map ordinal ++
    List.replicate plan.auxiliary 0

def infoCode (entry : Clause × Nat) : Option Stmt := do
  let number ← (plan.clauseNumber entry.1 entry.2).toOption
  let description ← (describeClause entry.1 number).toOption
  return .query (.insert (infoName entry.1.head.relation number).text
    ((infoRow ordinal plan number description).map Expr.signed))

/-- The rules that have an info relation. -/
def describedRules (program : Program) : List (Clause × Nat) :=
  program.relations.flatMap fun relation =>
    (program.clausesOf relation.name).filter fun entry => !entry.1.isFact

def infosCode : Option Stmt :=
  ((describedRules plan.program).mapM (infoCode ordinal plan)).map Stmt.sequence

end Code

variable {ordinal : String → Int64} {plan : Plan}

theorem writes_signed (value : Int64) :
    Writes ordinal Placed.tree (inArena (signed value)) (some (.signed value)) :=
  writes_expr (.signed value)

theorem writes_result {α : Type} (result : Except LoweringError α) :
    Writes ordinal id (liftExcept result) result.toOption := by
  have lifted : Writes ordinal id (liftExcept result) _ := Writes.lift result
  rwa [Option.map_id_fun] at lifted

theorem writes_text (text : String) :
    Writes ordinal Placed.tree (do inArena (signed (← encodeSymbol text))) (some (.signed (ordinal text))) := by
  change Writes ordinal Placed.tree _ (some (ordinal text) >>= fun word => some (Expr.signed word))
  refine (Writes.encodeSymbol text).bind ?_
  rintro word _ rfl
  exact writes_signed word

/-- The query that fills an info relation. -/
theorem writes_infoRow (name : String) (number : Nat) (description : Description) :
    Writes ordinal Placed.tree
      (do
        let numberValue ← inArena (signed (Int64.ofNat number))
        let texts ← (description.head :: description.literals).mapM fun text => do
          let ordinal ← encodeSymbol text
          inArena (signed ordinal)
        let padding ← (List.replicate plan.auxiliary 0).mapM fun zero => inArena (signed zero)
        let operation ← inArena (placeOp (.insert name (numberValue :: texts ++ padding)))
        inArena (query operation))
      (some (.query (.insert name ((infoRow ordinal plan number description).map Expr.signed)))) := by
  refine Writes.build (Builds.expr (.signed (Int64.ofNat number))) fun numberValue isNumber => ?_
  let texts := description.head :: description.literals
  have row : (infoRow ordinal plan number description).map Expr.signed =
      .signed (Int64.ofNat number) :: texts.map (fun text => Expr.signed (ordinal text)) ++
        (List.replicate plan.auxiliary (0 : Int64)).map Expr.signed := by
    simp [infoRow, texts]
  rw [row]
  change Writes ordinal Placed.tree _
    (some (texts.map fun text => Expr.signed (ordinal text)) >>= fun values =>
      some ((List.replicate plan.auxiliary (0 : Int64)).map Expr.signed) >>= fun padding =>
        some (Stmt.query (.insert name (.signed (Int64.ofNat number) :: values ++ padding))))
  refine (Writes.map texts fun text _ => writes_text text).bind ?_
  rintro values _ rfl
  refine (Writes.map _ fun value _ => writes_signed value).bind ?_
  rintro padding _ rfl
  refine Writes.build (Builds.op (.insert name (numberValue :: values ++ padding))) fun operation isOperation => ?_
  have numberTree : numberValue.tree = .signed (Int64.ofNat number) := isNumber
  have tree : operation.tree =
      .insert name (.signed (Int64.ofNat number) :: values.map Placed.tree ++ padding.map Placed.tree) := by
    rw [← numberTree, ← List.map_cons, ← List.map_append]
    exact isOperation
  rw [← tree]
  exact Writes.inArena (Builds.stmt (.query operation))

theorem yields_info (entry : Clause × Nat) :
    Yields ordinal Placed.tree (lowerInfo plan entry.1 entry.2) (infoCode ordinal plan entry) := by
  rw [lowerInfo, infoCode]
  refine (Yields.of_writes (writes_result (plan.clauseNumber entry.1 entry.2))).bind ?_
  rintro number _ rfl
  refine (Yields.of_writes (writes_result (describeClause entry.1 number))).bind ?_
  rintro description _ rfl
  refine (Yields.of_writes (Writes.report _ _ _)).andThen ?_
  refine (Yields.declareTable _).andThen ?_
  exact .of_writes (writes_infoRow _ number description)

theorem yields_infos : Yields ordinal Placed.tree (lowerInfos plan) (infosCode ordinal plan) := by
  rw [lowerInfos, infosCode, Option.map_eq_bind]
  refine (Yields.mapM (describedRules plan.program) fun entry _ => yields_info entry).bind ?_
  rintro queries _ rfl
  apply Yields.of_writes
  refine (Writes.report _ _ _).andThen ?_
  exact Writes.inArena (builds_sequence queries)

/-! ## Programs -/

variable {program : Program} {strategy : Strategy} {debugInfo : Bool} {compiled : Ram.Program}

/-- Nothing is in a draft, though events may have been reported. -/
structure Draft.Unwritten (draft : Draft) : Prop where
  symbols : draft.symbols = .empty
  tables : draft.tables = []
  subroutines : draft.subroutines = []

/-- A program that could be planned has been, and only events were reported. -/
theorem outcome_planProgram {plan : Plan} {draft after : Draft}
    (ran : outcome (planProgram program strategy debugInfo) draft = (.ok plan, after)) :
    Plan.of program strategy debugInfo = .ok plan ∧ ∃ events, after = { draft with events := events } := by
  obtain ⟨_, opened, reported, afterReport⟩ := of_outcome_bind ran
  obtain ⟨made, planned, isMade, afterPlan⟩ := of_outcome_bind afterReport
  obtain ⟨_, closed, alsoReported, finished⟩ := of_outcome_bind afterPlan
  have isOpened : ∃ events, opened = { draft with events := events } := ⟨_, (congrArg Prod.snd reported).symm⟩
  have isClosed : ∃ events, closed = { planned with events := events } := ⟨_, (congrArg Prod.snd alsoReported).symm⟩
  obtain ⟨rfl, rfl⟩ : made = plan ∧ closed = after := by
    cases finished
    exact ⟨rfl, rfl⟩
  cases found : Plan.of program strategy debugInfo with
  | error error =>
      rw [found] at isMade
      cases isMade
  | ok value =>
      rw [found] at isMade
      obtain ⟨rfl, rfl⟩ : value = made ∧ planned = opened := by
        cases isMade
        exact ⟨rfl, rfl⟩
      obtain ⟨_, rfl⟩ := isOpened
      obtain ⟨events, rfl⟩ := isClosed
      exact ⟨rfl, events, rfl⟩

/-- The code that lowers a program. -/
def lowering (program : Program) (strategy : Strategy) (debugInfo : Bool) : Lower (Placed Stmt) := do
  let plan ← planProgram program strategy debugInfo
  lowerUnit plan

theorem lowerProgram_result :
    (lowerProgram program strategy debugInfo).result =
      (outcome (lowering program strategy debugInfo) .empty).1.map
        (outcome (lowering program strategy debugInfo) .empty).2.finish :=
  rfl

theorem exists_result (isOk : (lowerProgram program strategy debugInfo).result.isOk) :
    ∃ compiled, (lowerProgram program strategy debugInfo).result = .ok compiled := by
  cases result : (lowerProgram program strategy debugInfo).result with
  | ok compiled => exact ⟨compiled, rfl⟩
  | error failure =>
    rw [result] at isOk
    cases isOk

/-- What is shown of the result of lowering is so of a lowered program. -/
theorem exists_shown {α : Type} {view : Ram.Program → α} {value : α}
    (shown : (lowerProgram program strategy debugInfo).result.toOption.map view = some value) :
    ∃ compiled, (lowerProgram program strategy debugInfo).result = .ok compiled ∧ view compiled = value := by
  cases result : (lowerProgram program strategy debugInfo).result with
  | ok compiled =>
      rw [result] at shown
      exact ⟨compiled, rfl, Option.some.inj shown⟩
  | error failure =>
      rw [result] at shown
      cases shown

/-- A program that was lowered was planned first, and then its unit was lowered. -/
theorem of_lowered (lowered : (lowerProgram program strategy debugInfo).result = .ok compiled) :
    ∃ plan start main last, Plan.of program strategy debugInfo = .ok plan ∧ start.Unwritten ∧
      outcome (lowerUnit plan) start = (.ok main, last) ∧ compiled = last.finish main := by
  rw [lowerProgram_result] at lowered
  cases ran : outcome (lowering program strategy debugInfo) .empty with
  | mk result last =>
      rw [ran] at lowered
      cases result with
      | error error => cases lowered
      | ok main =>
          cases lowered
          obtain ⟨plan, start, planned, isUnit⟩ := of_outcome_bind ran
          obtain ⟨isPlan, events, rfl⟩ := outcome_planProgram planned
          exact ⟨plan, _, main, last, isPlan, ⟨rfl, rfl, rfl⟩, isUnit, rfl⟩

theorem lowered_seminaive (lowered : (lowerProgram program .seminaive debugInfo).result = .ok compiled) :
    ∃ plan start main last, Plan.of program .seminaive debugInfo = .ok plan ∧ start.Unwritten ∧
      outcome (lowerEvaluation plan) start = (.ok main, last) ∧ compiled = last.finish main := by
  obtain ⟨plan, start, main, last, planned, unwritten, ran, finished⟩ := of_lowered lowered
  rw [lowerUnit, (scheduled_of planned).2.2] at ran
  exact ⟨plan, start, main, last, planned, unwritten, ran, finished⟩

/-- The main statement of a program lowered for semi-naive evaluation. -/
theorem evaluationCode_of_lowered (lowered : (lowerProgram program .seminaive debugInfo).result = .ok compiled)
    {ordinal : String → Int64} (agrees : compiled.symbols.Agrees ordinal) :
    ∃ plan, Plan.of program .seminaive debugInfo = .ok plan ∧
      evaluationCode ordinal plan = some compiled.main.tree := by
  obtain ⟨plan, start, main, last, planned, _, ran, rfl⟩ := lowered_seminaive lowered
  have given := (@yields_evaluation ordinal plan).gives start
  rw [ran] at given
  exact ⟨plan, planned, (given agrees).symm⟩

/-- A program whose evaluation has code is lowered for semi-naive evaluation. -/
theorem exists_lowered (planned : Plan.of program .seminaive debugInfo = .ok plan)
    (some : ∀ ordinal, (evaluationCode ordinal plan).isSome) :
    ∃ compiled, (lowerProgram program .seminaive debugInfo).result = .ok compiled := by
  obtain ⟨after, isPlan⟩ : ∃ after,
      outcome (planProgram program .seminaive debugInfo) .empty = (.ok plan, after) := by
    rw [planProgram, planned]
    exact ⟨_, rfl⟩
  have given := (@yields_evaluation (outcome (lowerEvaluation plan) after).2.symbols.ordinal plan).gives after
    (Symbols.agrees_ordinal _)
  rw [lowerProgram_result, lowering, outcome_bind, isPlan]
  simp only [lowerUnit, (scheduled_of planned).2.2]
  cases ran : outcome (lowerEvaluation plan) after with
  | mk result last =>
      rw [ran] at given
      cases result with
      | ok main => exact ⟨_, rfl⟩
      | error error =>
          have isSome := some last.symbols.ordinal
          rw [← given] at isSome
          cases isSome

/-- What was written of a program lowered for provenance. -/
theorem lowered_provenance (lowered : (lowerProgram program .provenance debugInfo).result = .ok compiled) :
    ∃ plan start evaluation middle infos later last, Plan.of program .provenance debugInfo = .ok plan ∧
      start.Unwritten ∧ outcome (lowerEvaluation plan) start = (.ok evaluation, middle) ∧
      outcome (lowerInfos plan) middle = (.ok infos, later) ∧
      outcome ((explainedRules plan.program).forM fun entry => addExplanation plan entry.1 entry.2) later =
        (.ok (), last) ∧
      compiled.symbols = last.symbols ∧ compiled.subroutines = last.subroutines ∧
      compiled.main.tree = .sequence [evaluation.tree, infos.tree] := by
  obtain ⟨plan, start, main, final, planned, unwritten, ran, rfl⟩ := of_lowered lowered
  rw [lowerUnit, (scheduled_of planned).2.2] at ran
  obtain ⟨evaluation, middle, isEvaluation, afterEvaluation⟩ := of_outcome_bind ran
  obtain ⟨infos, later, areInfos, afterInfos⟩ := of_outcome_bind afterEvaluation
  obtain ⟨_, last, added, finished⟩ := of_outcome_bind afterInfos
  refine ⟨plan, start, evaluation, middle, infos, later, last, planned, unwritten, isEvaluation, areInfos, added, ?_⟩
  have isFinal : final.symbols = last.symbols ∧ final.subroutines = last.subroutines ∧
      main.tree = .sequence [evaluation.tree, infos.tree] := by
    cases finished
    exact ⟨rfl, rfl, rfl⟩
  exact isFinal

/-- The main statement of a program lowered for provenance, whatever ordinals texts have that the program does not
know. -/
theorem codes_of_agreeing (lowered : (lowerProgram program .provenance debugInfo).result = .ok compiled) :
    ∃ plan evaluation infos, Plan.of program .provenance debugInfo = .ok plan ∧
      (∀ ordinal, compiled.symbols.Agrees ordinal →
        evaluationCode ordinal plan = some evaluation ∧ infosCode ordinal plan = some infos) ∧
      compiled.main.tree = .sequence [evaluation, infos] := by
  obtain ⟨plan, start, evaluation, middle, infos, later, last, planned, _, isEvaluation, areInfos, added, symbols, _,
    main⟩ := lowered_provenance lowered
  refine ⟨plan, evaluation.tree, infos.tree, planned, fun ordinal agrees => ?_, main⟩
  have agreesLater : later.symbols.Agrees ordinal :=
    Symbols.Agrees.of_extends (symbols ▸ agrees) (grows_addExplanations added)
  have givenInfos := (@yields_infos ordinal plan).gives middle
  have grows := (@yields_infos ordinal plan).symbols middle
  rw [areInfos] at givenInfos grows
  have given := (@yields_evaluation ordinal plan).gives start
  rw [isEvaluation] at given
  exact ⟨(given (agreesLater.of_extends grows)).symm, (givenInfos agreesLater).symm⟩

theorem codes_of_lowered (lowered : (lowerProgram program .provenance debugInfo).result = .ok compiled) :
    ∃ plan evaluation infos, Plan.of program .provenance debugInfo = .ok plan ∧
      evaluationCode compiled.symbols.ordinal plan = some evaluation ∧
      infosCode compiled.symbols.ordinal plan = some infos ∧ compiled.main.tree = .sequence [evaluation, infos] := by
  obtain ⟨plan, evaluation, infos, planned, codes, main⟩ := codes_of_agreeing lowered
  obtain ⟨isEvaluation, areInfos⟩ := codes _ (Symbols.agrees_ordinal compiled.symbols)
  exact ⟨plan, evaluation, infos, planned, isEvaluation, areInfos, main⟩

/-- Every subroutine of a program is one of the two of a rule, whatever ordinals texts have that the program does not
know. There is none unless for provenance. -/
theorem subroutines_of_agreeing (lowered : (lowerProgram program strategy debugInfo).result = .ok compiled)
    {name : String} {subroutine : Subroutine} (found : compiled.subroutine? name = some subroutine) :
    ∃ plan clause, Plan.of program strategy debugInfo = .ok plan ∧ strategy = .provenance ∧
      clause ∈ program.clauses ∧ clause.isFact = false ∧
      ((∀ ordinal, compiled.symbols.Agrees ordinal →
          explanationCode ordinal plan clause (Slots.ofClause clause) = some subroutine.body.tree) ∨
        ∀ ordinal, compiled.symbols.Agrees ordinal →
          decisionCode ordinal plan clause (Slots.ofClause clause) = some subroutine.body.tree) := by
  cases strategy with
  | seminaive =>
      obtain ⟨plan, start, main, last, _, unwritten, ran, rfl⟩ := lowered_seminaive lowered
      have kept := (@yields_evaluation (fun _ => 0) plan).subroutines start
      rw [ran, unwritten.subroutines] at kept
      change last.subroutines.lookup name = _ at found
      rw [kept] at found
      cases found
  | provenance =>
      obtain ⟨plan, start, _, middle, _, later, last, planned, unwritten, ranEvaluation, ranInfos, added, symbols,
        subroutines, _⟩ := lowered_provenance lowered
      obtain ⟨_, rfl, _⟩ := scheduled_of planned
      have kept := (@yields_evaluation (fun _ => 0) plan).subroutines start
      have alsoKept := (@yields_infos (fun _ => 0) plan).subroutines middle
      rw [ranEvaluation, unwritten.subroutines] at kept
      rw [ranInfos, kept] at alsoKept
      have isLast : last.subroutines.lookup name = some subroutine := subroutines ▸ found
      rw [symbols]
      refine @of_addExplanations plan later last (fun statement => ∃ other clause,
        Plan.of plan.program .provenance debugInfo = .ok other ∧ Strategy.provenance = .provenance ∧
          clause ∈ plan.program.clauses ∧ clause.isFact = false ∧
          ((∀ ordinal, last.symbols.Agrees ordinal →
              explanationCode ordinal other clause (Slots.ofClause clause) = some statement) ∨
            ∀ ordinal, last.symbols.Agrees ordinal →
              decisionCode ordinal other clause (Slots.ofClause clause) = some statement)) _
        (fun entry member statement explains => ?_) added (fun other found isFound => ?_) name subroutine isLast
      · obtain ⟨isNumbered, isExplained⟩ := List.mem_filter.1 member
        have notFact : entry.1.isFact = false := by
          simp only [Bool.and_eq_true, Bool.not_eq_true'] at isExplained
          exact isExplained.1
        refine ⟨plan, entry.1, planned, rfl, List.fst_mem_of_mem_zipIdx isNumbered, notFact, ?_⟩
        exact explains.imp_left fun derives => derives notFact
      · rw [alsoKept] at isFound
        cases isFound

theorem subroutines_of_lowered (lowered : (lowerProgram program strategy debugInfo).result = .ok compiled)
    {name : String} {subroutine : Subroutine} (found : compiled.subroutine? name = some subroutine) :
    ∃ plan ordinal clause, Plan.of program strategy debugInfo = .ok plan ∧ strategy = .provenance ∧
      clause ∈ program.clauses ∧ clause.isFact = false ∧
      (explanationCode ordinal plan clause (Slots.ofClause clause) = some subroutine.body.tree ∨
        decisionCode ordinal plan clause (Slots.ofClause clause) = some subroutine.body.tree) := by
  obtain ⟨plan, clause, planned, recorded, isClause, isRule, codes⟩ := subroutines_of_agreeing lowered found
  have agrees := Symbols.agrees_ordinal compiled.symbols
  exact ⟨plan, _, clause, planned, recorded, isClause, isRule,
    codes.imp (fun derives => derives _ agrees) fun decides => decides _ agrees⟩

end DatalogRam.Lowering
