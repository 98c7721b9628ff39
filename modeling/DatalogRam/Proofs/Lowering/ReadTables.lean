import DatalogRam.Proofs.Analysis.Expiry
import DatalogRam.Proofs.Evaluation.Tables
import DatalogRam.Proofs.Lowering.AggregateFrame
import DatalogRam.Proofs.Lowering.Coverage

/-!
# Which tables the steps read

The strata and the schedule of expirations come from what the bodies of clauses read. The code of a clause scans,
folds and looks into the tables of its body and of its head, so a step finds everything it reads complete and not
yet cleared. An aggregate of a head is also evaluated, but no analysis knows of it: the heads here have none.
-/

namespace DatalogRam

open Ram Analysis

namespace Ram

/-- The tables that the existence checks of a condition look into. -/
def Cond.checkedTables : Cond → List String
  | .both left right => left.checkedTables ++ right.checkedTables
  | .not condition => condition.checkedTables
  | .holds relation _ => [relation]
  | .true | .false | .compare .. | .isEmpty _ => []

/-- The tables that an operation scans, folds or looks into. -/
def Op.readTables : Op → List String
  | .scan relation _ nested => relation :: nested.readTables
  | .filter condition nested => condition.checkedTables ++ nested.readTables
  | .aggregate relation _ _ _ condition nested => relation :: (condition.checkedTables ++ nested.readTables)
  | .insert .. | .answer _ => []

mutual

def Stmt.readTables : Stmt → List String
  | .sequence statements => Stmt.readTablesOfAll statements
  | .query operation => operation.readTables
  | .loop body => body.readTables
  | .exit condition => condition.checkedTables
  | .debug _ statement => statement.readTables
  | .clear _ | .swap .. | .merge .. => []

def Stmt.readTablesOfAll : List Stmt → List String
  | [] => []
  | statement :: statements => statement.readTables ++ Stmt.readTablesOfAll statements

end

mutual

/-- The tables that a statement clears. -/
def Stmt.clearedTables : Stmt → List String
  | .sequence statements => Stmt.clearedTablesOfAll statements
  | .loop body => body.clearedTables
  | .clear relation => [relation]
  | .debug _ statement => statement.clearedTables
  | .query _ | .exit _ | .swap .. | .merge .. => []

def Stmt.clearedTablesOfAll : List Stmt → List String
  | [] => []
  | statement :: statements => statement.clearedTables ++ Stmt.clearedTablesOfAll statements

end

theorem Stmt.mem_readTablesOfAll {statements : List Stmt} {table : String} :
    table ∈ Stmt.readTablesOfAll statements ↔ ∃ statement ∈ statements, table ∈ statement.readTables := by
  induction statements with
  | nil => simp [Stmt.readTablesOfAll]
  | cons statement statements ih => simp [Stmt.readTablesOfAll, ih]

theorem Stmt.mem_clearedTablesOfAll {statements : List Stmt} {table : String} :
    table ∈ Stmt.clearedTablesOfAll statements ↔ ∃ statement ∈ statements, table ∈ statement.clearedTables := by
  induction statements with
  | nil => simp [Stmt.clearedTablesOfAll]
  | cons statement statements ih => simp [Stmt.clearedTablesOfAll, ih]

end Ram

namespace Lowering

/-- What the query of a clause may read: of the declared relations that its body reads, the table or the rows of
the previous round, and the table of its head. -/
def MayRead (program : Program) (clause : Clause) (table : String) : Prop :=
  ∃ name ∈ program.relationNames, (name = clause.head.relation ∨ name ∈ clause.reads) ∧
    (table = name.text ∨ table = deltaName name)

/-- An operation reads only tables of some kind. -/
def ReadsOnly (allowed : String → Prop) (operation : Op) : Prop :=
  ∀ table ∈ operation.readTables, allowed table

def ChecksOnly (allowed : String → Prop) (condition : Cond) : Prop :=
  ∀ table ∈ condition.checkedTables, allowed table

variable {ordinal : String → Int64} {plan : Plan} {allowed : String → Prop} {sites : Sites} {operation result : Op}

theorem ReadsOnly.filter {condition : Cond} (checks : ChecksOnly allowed condition)
    (reads : ReadsOnly allowed operation) :
    ReadsOnly allowed (.filter condition operation) :=
  fun table member => (List.mem_append.1 member).elim (checks table) (reads table)

theorem ReadsOnly.scan {relation : String} (isAllowed : allowed relation) (tuple : Nat)
    (reads : ReadsOnly allowed operation) : ReadsOnly allowed (.scan relation tuple operation) :=
  fun table member => (List.mem_cons.1 member).elim (fun same => same ▸ isAllowed) (reads table)

theorem checksOnly_compare (op : Comparison) (left right : Expr) : ChecksOnly allowed (.compare op left right) :=
  fun _ member => absurd member List.not_mem_nil

theorem ChecksOnly.allOf {conditions : List Cond} (each : ∀ condition ∈ conditions, ChecksOnly allowed condition) :
    ChecksOnly allowed (allOf conditions) :=
  of_allOf (fun _ member => absurd member List.not_mem_nil)
    (fun _ _ left right table member => (List.mem_append.1 member).elim (left table) (right table)) each

theorem ReadsOnly.guardedBy {conditions : List Cond} (each : ∀ condition ∈ conditions, ChecksOnly allowed condition)
    (reads : ReadsOnly allowed operation) : ReadsOnly allowed (guardedBy conditions operation) := by
  rw [Lowering.guardedBy]
  split
  · exact reads
  · exact reads.filter (.allOf each)

theorem ReadsOnly.underGuard {condition : Option Cond}
    (checks : ∀ found, condition = some found → ChecksOnly allowed found) (reads : ReadsOnly allowed operation) :
    ReadsOnly allowed (Op.underGuard operation condition) := by
  cases condition with
  | none => exact reads
  | some found => exact reads.filter (checks found rfl)

theorem ReadsOnly.scanCode {version : Version} {atom : Atom} {tuple : Nat}
    (isAllowed : allowed (version.source tuple atom.relation)) (reads : ReadsOnly allowed operation)
    (code : scanCode ordinal version sites atom tuple operation = some result) : ReadsOnly allowed result := by
  obtain ⟨conditions, areConditions, same⟩ := Option.bind_eq_some_iff.1 code
  cases same
  refine .scan isAllowed tuple (.guardedBy (fun condition member => ?_) reads)
  obtain ⟨entry, _, isMatch⟩ := mem_of_filterMapM areConditions member
  rw [matchBodyCode] at isMatch
  split at isMatch
  · cases isMatch
  · obtain ⟨value, _, same⟩ := Option.map_eq_some_iff.1 isMatch
    cases same
    exact checksOnly_compare _ _ _

/-- The condition of a literal looks into the table of a negated atom. -/
theorem checksOnly_constraint {literal : Literal} {condition : Cond}
    (code : constraintCode ordinal plan sites literal = some (some condition))
    (isAllowed : ∀ relation args, literal = .negative relation args → plan.program.declares relation = true →
      allowed relation.text) : ChecksOnly allowed condition := by
  cases literal with
  | positive => cases code
  | negative relation args =>
      obtain ⟨declared, values, _, same⟩ := constraintCode_negative_eq_some code
      cases same
      intro table member
      rw [List.mem_singleton.1 member]
      exact isAllowed relation args rfl declared
  | comparison op left right =>
      obtain ⟨leftValue, rightValue, _, _, same⟩ := constraintCode_comparison_eq_some code
      cases same
      exact checksOnly_compare _ _ _
  | truth value =>
      cases value <;> cases code <;> exact fun _ member => absurd member List.not_mem_nil

/-- The code of an aggregate folds the table of its atom and looks into those of its negated atoms. -/
theorem ReadsOnly.aggregateCode {aggregate : Aggregate} {tuple : Nat}
    (isAllowed : ∀ literal ∈ aggregate.body, ∀ atom, literal.atom? = some atom →
      plan.program.declares atom.relation = true → allowed atom.relation.text)
    (reads : ReadsOnly allowed operation)
    (code : aggregateCode ordinal plan sites aggregate tuple operation = some result) : ReadsOnly allowed result := by
  obtain ⟨atom, inner, comparisons, constraints, value, single, declared, areSites, areConstraints, _, rfl⟩ :=
    aggregateCode_eq_some code
  have folded : allowed atom.relation.text :=
    isAllowed _ (Literal.mem_positiveAtoms.1 (single ▸ List.mem_singleton_self atom)) atom rfl declared
  have checks : ∀ condition ∈ comparisons ++ constraints, ChecksOnly allowed condition := by
    intro condition member
    rcases List.mem_append.1 member with isComparison | isConstraint
    · obtain ⟨_, _, _, _, _, value, _, rfl⟩ := (aggregateSitesCode_spec areSites).2 condition isComparison
      exact checksOnly_compare _ _ _
    · obtain ⟨literal, member, isCode⟩ := mem_of_filterMapM areConstraints isConstraint
      refine checksOnly_constraint isCode fun relation args same declared => ?_
      exact isAllowed literal member ⟨relation, args⟩ (by rw [same]; rfl) declared
  intro table member
  rcases List.mem_cons.1 member with rfl | member
  · exact folded
  · exact (List.mem_append.1 member).elim (ChecksOnly.allOf checks table) (reads table)

mutual

/-- What an aggregate of an argument reads is read by the argument. -/
theorem reads_of_aggregates {aggregate : Aggregate} {name : Name} (reads : name ∈ Literal.readsOfAll aggregate.body) :
    ∀ arg : Argument, aggregate ∈ Argument.aggregates arg → name ∈ arg.reads
  | .var _, member | .unnamed, member | .constant _, member | .counter, member => by
      simp [Argument.aggregates] at member
  | .operator _ args, member => reads_of_aggregatesOfAll reads args member
  | .external _ args, member => reads_of_aggregatesOfAll reads args member
  | .record args, member => reads_of_aggregatesOfAll reads args member
  | .aggregate _ _ _, member => by
      obtain rfl := List.mem_singleton.1 member
      exact List.mem_append_left _ reads

theorem reads_of_aggregatesOfAll {aggregate : Aggregate} {name : Name}
    (reads : name ∈ Literal.readsOfAll aggregate.body) :
    ∀ args : List Argument, aggregate ∈ Argument.aggregatesOfAll args → name ∈ Argument.readsOfAll args
  | [], member => by simp [Argument.aggregatesOfAll] at member
  | arg :: args, member =>
      (List.mem_append.1 member).elim
        (fun here => List.mem_append_left _ (reads_of_aggregates reads arg here))
        fun later => List.mem_append_right _ (reads_of_aggregatesOfAll reads args later)

end

theorem reads_of_literalAggregates {aggregate : Aggregate} {name : Name}
    (reads : name ∈ Literal.readsOfAll aggregate.body) {literal : Literal}
    (member : aggregate ∈ Literal.aggregates literal) : name ∈ literal.reads := by
  cases literal with
  | positive relation args => exact List.mem_cons_of_mem _ (reads_of_aggregatesOfAll reads args member)
  | negative relation args => exact List.mem_cons_of_mem _ (reads_of_aggregatesOfAll reads args member)
  | comparison op left right =>
      rcases List.mem_append.1 member with inLeft | inRight
      · exact List.mem_append_left _ (reads_of_aggregates reads left inLeft)
      · exact List.mem_append_right _ (reads_of_aggregates reads right inRight)
  | truth value => cases member

theorem Literal.mem_reads_of_atom {literal : Literal} {atom : Atom} (isAtom : literal.atom? = some atom) :
    atom.relation ∈ literal.reads := by
  cases literal <;> cases isAtom <;> exact List.mem_cons_self

/-- If the head has no aggregates, the atoms of a clause's aggregates are read by its body. -/
theorem reads_of_clauseAggregates {clause : Clause} (plainHead : Argument.aggregatesOfAll clause.head.args = [])
    {aggregate : Aggregate} (member : aggregate ∈ clauseAggregates clause) {literal : Literal}
    (inBody : literal ∈ aggregate.body) {atom : Atom} (isAtom : literal.atom? = some atom) :
    atom.relation ∈ clause.reads := by
  rw [clauseAggregates, plainHead, List.nil_append, List.mem_eraseDups] at member
  obtain ⟨outer, isLiteral, isAggregate⟩ := List.mem_flatMap.1 member
  have reads := Literal.mem_readsOfAll.2 ⟨literal, inBody, Literal.mem_reads_of_atom isAtom⟩
  exact Literal.mem_readsOfAll.2 ⟨outer, isLiteral, reads_of_literalAggregates reads isAggregate⟩

variable {clause : Clause} {id : Nat} {version : Version} {statement : Stmt}

theorem readsOnly_head {sites : Sites} {level : Expr} {incremental : Bool}
    (isAllowed : allowed clause.head.relation.text)
    (code : headCode ordinal plan clause id sites level incremental = some operation) :
    ReadsOnly allowed operation := by
  obtain ⟨logical, _, code⟩ := Option.bind_eq_some_iff.1 code
  obtain ⟨auxiliary, _, same⟩ := Option.bind_eq_some_iff.1 code
  cases same
  refine ReadsOnly.underGuard (fun condition found => ?_) fun _ member => absurd member List.not_mem_nil
  rw [guardCode] at found
  split at found
  · cases found
    exact fun table member => List.mem_singleton.1 member ▸ isAllowed
  · split at found <;> cases found
    exact fun _ member => absurd member List.not_mem_nil

/-- The query of a clause reads the tables of its body and its head. -/
theorem mayRead_of_clauseCode (plainHead : Argument.aggregatesOfAll clause.head.args = [])
    (code : clauseCode ordinal plan clause id version = some statement) :
    ∀ table ∈ statement.readTables, MayRead plan.program clause table := by
  obtain ⟨isDeclared, query, isQuery, rfl⟩ := clauseCode_eq_some code
  have sameTables : (withText plan clause query).readTables = query.readTables := by
    rw [withText]
    split <;> rfl
  rw [sameTables]
  have headDeclared : clause.head.relation ∈ plan.program.relationNames :=
    Program.mem_relationNames_of_declares isDeclared
  have ofHead : MayRead plan.program clause clause.head.relation.text :=
    ⟨_, headDeclared, .inl rfl, .inl rfl⟩
  have ofBody {literal : Literal} (member : literal ∈ clause.body) {atom : Atom} (isAtom : literal.atom? = some atom)
      (declared : plan.program.declares atom.relation = true) : MayRead plan.program clause atom.relation.text :=
    ⟨_, Program.mem_relationNames_of_declares declared,
      .inr (Literal.mem_readsOfAll.2 ⟨literal, member, Literal.mem_reads_of_atom isAtom⟩), .inl rfl⟩
  rw [clauseQuery] at isQuery
  split at isQuery
  · obtain ⟨operation, isInsertion, rfl⟩ := factCode_eq_some isQuery
    exact readsOnly_head ofHead isInsertion
  · obtain ⟨frame, inner, constrained, aggregated, operation, isFrame, isInner, isConstrained, isAggregated, isScanned,
      rfl⟩ := ruleCode_eq_some isQuery
    obtain ⟨rfl, declared⟩ := frameOf_eq_some isFrame
    refine of_foldrM (ReadsOnly (MayRead plan.program clause)) (fun entry member before after reads code => ?_)
      (of_foldrM (ReadsOnly (MayRead plan.program clause)) (fun entry member before after reads code => ?_)
        (of_foldrM (ReadsOnly (MayRead plan.program clause)) (fun literal member before after reads code => ?_)
          (readsOnly_head ofHead isInner) isConstrained) isAggregated) isScanned
    · have isAtom : entry.1 ∈ clause.positiveAtoms := List.fst_mem_of_mem_zipIdx member
      refine reads.scanCode ?_ code
      refine ⟨_, Program.mem_relationNames_of_declares (declared entry.1 isAtom),
        .inr (Clause.reads_of_positive isAtom), ?_⟩
      rw [Version.source]
      split
      · exact .inr rfl
      · exact .inl rfl
    · have isAggregate : entry.1 ∈ clauseAggregates clause := List.fst_mem_of_mem_zipIdx member
      refine reads.aggregateCode (fun literal inBody atom isAtom declared => ?_) code
      exact ⟨_, Program.mem_relationNames_of_declares declared,
        .inr (reads_of_clauseAggregates plainHead isAggregate inBody isAtom), .inl rfl⟩
    · obtain ⟨condition, isCondition, rfl⟩ := Option.map_eq_some_iff.1 code
      refine reads.underGuard fun found isFound => ?_
      subst isFound
      exact checksOnly_constraint isCondition fun relation args same declared =>
        ofBody member (by rw [same]; rfl) declared

/-! ## Steps -/

variable {program : Program} {stratum : Stratum}

theorem composes_readTables (allowed : String → Prop) (stratum : Stratum) :
    Composes (fun statement => ∀ table ∈ statement.readTables, allowed table) stratum := by
  refine .of_management (fun statements each table member => ?_) (fun _ reads => reads) (fun _ => ?_)
    (fun _ _ _ reads => nomatch reads) (fun _ _ _ reads => nomatch reads)
    fun _ _ => ⟨fun _ reads => (nomatch reads), fun _ reads => (nomatch reads)⟩
  · obtain ⟨statement, isStatement, reads⟩ := Stmt.mem_readTablesOfAll.1 member
    exact each statement isStatement table reads
  · apply ChecksOnly.allOf
    intro condition isCondition
    obtain ⟨name, _, rfl⟩ := List.mem_map.1 isCondition
    exact fun _ member => absurd member List.not_mem_nil

/-- A stratum reads what the clauses of its relations may read. -/
theorem mayRead_of_stratumCode {evaluation : Stmt} (code : stratumCode ordinal plan stratum = some evaluation)
    (plainHeads : ∀ clause ∈ plan.program.clauses, Argument.aggregatesOfAll clause.head.args = []) :
    ∀ table ∈ evaluation.readTables, ∃ clause ∈ plan.program.clauses,
      clause.head.relation ∈ stratum.relations ∧ MayRead plan.program clause table := by
  refine of_stratumCode (composes_readTables _ _) (fun query isRun statement isCode table reads => ?_) code
  have isClause := List.mem_of_getElem? isRun.atId
  exact ⟨query.clause, isClause, isRun.head, mayRead_of_clauseCode (plainHeads _ isClause) isCode table reads⟩

theorem clearedTables_of_clauseCode (code : clauseCode ordinal plan clause id version = some statement) :
    statement.clearedTables = [] := by
  obtain ⟨operation, rfl⟩ := exists_query_of_clauseCode code
  rw [withText]
  split <;> rfl

theorem composes_clearedTables (stratum : Stratum) :
    Composes (fun statement => ∀ table ∈ statement.clearedTables,
      ∃ name ∈ stratum.relations, table = deltaName name ∨ table = freshName name) stratum := by
  refine .of_management (fun statements each table member => ?_) (fun _ clears => clears)
    (fun _ _ clears => nomatch clears) (fun _ _ _ clears => nomatch clears) (fun _ _ _ clears => nomatch clears)
    fun name isName => ⟨fun table clears => ?_, fun table clears => ?_⟩
  · obtain ⟨statement, isStatement, clears⟩ := Stmt.mem_clearedTablesOfAll.1 member
    exact each statement isStatement table clears
  · exact ⟨name, isName, .inl (List.mem_singleton.1 clears)⟩
  · exact ⟨name, isName, .inr (List.mem_singleton.1 clears)⟩

/-- Only the tables for rounds are cleared by a stratum itself. -/
theorem clearedTables_of_stratumCode {evaluation : Stmt} (code : stratumCode ordinal plan stratum = some evaluation) :
    ∀ table ∈ evaluation.clearedTables,
      ∃ name ∈ stratum.relations, table = deltaName name ∨ table = freshName name := by
  refine of_stratumCode (composes_clearedTables _) (fun query _ statement isCode table clears => ?_) code
  rw [clearedTables_of_clauseCode isCode] at clears
  cases clears

theorem mem_clearedTables_clearExpired {expired : List Name} {table : String}
    (member : table ∈ (clearExpiredCode .seminaive expired).clearedTables) : ∃ name ∈ expired, table = name.text := by
  obtain ⟨statement, isStatement, clears⟩ := Stmt.mem_clearedTablesOfAll.1 member
  obtain ⟨name, isName, rfl⟩ := List.mem_map.1 isStatement
  exact ⟨name, isName, List.mem_singleton.1 clears⟩

/-- The heads of a program have no aggregates, and no name that a body reads looks like a declared one without being
the same. -/
structure Schedulable (program : Program) : Prop where
  distinct : (tableNames program).Nodup
  plainHeads : ∀ clause ∈ program.clauses, Argument.aggregatesOfAll clause.head.args = []
  readNames : ∀ clause ∈ program.clauses, ∀ name ∈ clause.reads, ∀ declared ∈ program.relationNames,
    name.text = declared.text → name = declared

theorem Schedulable.once (schedulable : Schedulable program) : program.relationNames.Nodup :=
  relationNames_nodup schedulable.distinct

/-- A table that has the name of a declared relation is the relation's own. -/
theorem Schedulable.eq_of_table (schedulable : Schedulable program) (part : Part) {name other : Name}
    (declared : name ∈ program.relationNames) (alsoDeclared : other ∈ program.relationNames)
    (same : name.text = part.table other) : part = .full ∧ other = name := by
  obtain ⟨isFull, rfl⟩ := @table_injective _ schedulable.distinct .full part _ _ declared alsoDeclared same
  exact ⟨isFull.symm, rfl⟩

/-- A stratum that reads the table of a declared relation computes or reads the relation. -/
theorem touched_of_readTables (schedulable : Schedulable plan.program) {evaluation : Stmt}
    (code : stratumCode ordinal plan stratum = some evaluation) {name : Name}
    (declared : name ∈ plan.program.relationNames) (reads : name.text ∈ evaluation.readTables) :
    ∃ clause ∈ plan.program.clauses, clause.head.relation ∈ stratum.relations ∧
      (name = clause.head.relation ∨ name ∈ clause.reads) := by
  obtain ⟨clause, isClause, isHead, other, alsoDeclared, isRead, isTable | isTable⟩ :=
    mayRead_of_stratumCode code schedulable.plainHeads _ reads
  · obtain ⟨_, rfl⟩ := schedulable.eq_of_table .full declared alsoDeclared isTable
    exact ⟨clause, isClause, isHead, isRead⟩
  · cases (schedulable.eq_of_table .delta declared alsoDeclared isTable).1

/-- What clears the table of a declared relation is the expiry of the relation. -/
theorem expired_of_clearedTables (schedulable : Schedulable program) {position : Nat}
    (found : (strata program)[position]? = some stratum) {evaluation : Stmt}
    (code : stratumCode ordinal plan stratum = some evaluation) {name : Name}
    (declared : name ∈ program.relationNames)
    (clears : name.text ∈ (Stmt.sequence [evaluation,
      clearExpiredCode .seminaive ((expirations program (strata program))[position]?.getD [])]).clearedTables) :
    ∃ expired, (expirations program (strata program))[position]? = some expired ∧ name ∈ expired := by
  obtain ⟨statement, isStatement, cleared⟩ := Stmt.mem_clearedTablesOfAll.1 clears
  simp only [List.mem_cons, List.not_mem_nil, or_false] at isStatement
  rcases isStatement with rfl | rfl
  · obtain ⟨other, isOwn, isTable⟩ := clearedTables_of_stratumCode code _ cleared
    have alsoDeclared := ((InStratum.of_getElem? found).2 isOwn).declared
    rcases isTable with isTable | isTable
    · cases (schedulable.eq_of_table .delta declared alsoDeclared isTable).1
    · cases (schedulable.eq_of_table .fresh declared alsoDeclared isTable).1
  · obtain ⟨other, isExpired, isTable⟩ := mem_clearedTables_clearExpired cleared
    cases atPosition : (expirations program (strata program))[position]? with
    | none => simp [atPosition] at isExpired
    | some expired =>
        rw [atPosition, Option.getD_some] at isExpired
        refine ⟨expired, rfl, ?_⟩
        suffices same : other = name from same ▸ isExpired
        obtain ⟨last, isStratum, isTouched⟩ := touched_of_expirations atPosition isExpired
        rcases mem_touched_iff.1 isTouched with isOwn | ⟨clause, isClause, _, reads⟩
        · have alsoDeclared := ((InStratum.of_getElem? isStratum).2 isOwn).declared
          exact (schedulable.eq_of_table .full declared alsoDeclared isTable).2
        · exact schedulable.readNames clause isClause other reads name declared isTable.symm

variable {debugInfo : Bool} {compiled : Ram.Program}

/-- Every relation that a step reads is complete and has not been cleared: it belongs to the stratum of the step or
to an earlier one, and no earlier step clears it. -/
theorem steps_read_complete (schedulable : Schedulable program)
    (lowered : (lowerProgram program .seminaive debugInfo).result = .ok compiled) :
    ∃ steps, compiled.main.tree = .sequence steps ∧
      ∀ (position : Nat) (step : Stmt), steps[position]? = some step → ∀ name ∈ program.relationNames,
        name.text ∈ step.readTables →
          (∃ own ≤ position, stratumOf? (strata program) name = some own) ∧
            ∀ (earlier : Nat) (before : Stmt), earlier < position → steps[earlier]? = some before →
              name.text ∉ before.clearedTables := by
  obtain ⟨plan, steps, planned, code, isMain⟩ := hasSteps_of_lowered lowered
  obtain ⟨scheduled, rfl, isStrategy⟩ := scheduled_of planned
  obtain ⟨others, isSequence, sameLength, each⟩ := evaluationCode_eq_some code
  obtain rfl : others = steps := by cases isSequence; rfl
  rw [scheduled.strata] at sameLength each
  rw [scheduled.expirations, isStrategy] at each
  have atStratum {position : Nat} {step : Stmt} (isStep : others[position]? = some step) :
      ∃ stratum evaluation, (strata plan.program)[position]? = some stratum ∧
        stratumCode compiled.symbols.ordinal plan stratum = some evaluation ∧ step = .sequence
          [evaluation, clearExpiredCode .seminaive
            ((expirations plan.program (strata plan.program))[position]?.getD [])] := by
    have inside : position < (strata plan.program).length :=
      sameLength ▸ (List.getElem?_eq_some_iff.1 isStep).1
    obtain ⟨evaluation, isEvaluation, isHere⟩ := each position _ (List.getElem?_eq_getElem inside)
    exact ⟨_, evaluation, List.getElem?_eq_getElem inside, isEvaluation, Option.some.inj (isStep.symm.trans isHere)⟩
  refine ⟨others, isMain, fun position step isStep name declared reads => ?_⟩
  obtain ⟨stratum, evaluation, found, isEvaluation, rfl⟩ := atStratum isStep
  have readsHere : name.text ∈ evaluation.readTables := by
    obtain ⟨statement, isStatement, inside⟩ := Stmt.mem_readTablesOfAll.1 reads
    simp only [List.mem_cons, List.not_mem_nil, or_false] at isStatement
    rcases isStatement with rfl | rfl
    · exact inside
    · obtain ⟨_, isClear, inClear⟩ := Stmt.mem_readTablesOfAll.1 inside
      obtain ⟨_, _, rfl⟩ := List.mem_map.1 isClear
      cases inClear
  obtain ⟨clause, isClause, isHead, isRead⟩ := touched_of_readTables schedulable isEvaluation declared readsHere
  have inside := (InStratum.of_getElem? found).2 isHead
  constructor
  · obtain ⟨own, isOwn⟩ := exists_inStratum declared
    refine ⟨own, ?_, (stratumOf?_eq_some_iff schedulable.once).2 isOwn⟩
    refine inside.le_of_readsThrough schedulable.once isOwn ?_
    rcases isRead with rfl | isRead
    · exact .refl
    · exact .single ⟨declared, clause, isClause, rfl, isRead⟩
  · intro earlier before first isBefore clears
    obtain ⟨previous, _, foundPrevious, isPrevious, rfl⟩ := atStratum isBefore
    obtain ⟨expired, isExpired, member⟩ :=
      expired_of_clearedTables schedulable foundPrevious isPrevious declared clears
    refine (expirations_getElem? isExpired member).2 position stratum first found (mem_touched_iff.2 ?_)
    rcases isRead with rfl | isRead
    · exact .inl isHead
    · exact .inr ⟨clause, isClause, isHead, isRead⟩

theorem steps_read_complete_parity :
    Schedulable parity ∧ ∃ compiled steps, (lowerProgram parity .seminaive true).result = .ok compiled ∧
      compiled.main.tree = .sequence steps ∧
      ∀ (position : Nat) (step : Stmt), steps[position]? = some step → ∀ name ∈ parity.relationNames,
        name.text ∈ step.readTables →
          (∃ own ≤ position, stratumOf? (strata parity) name = some own) ∧
            ∀ (earlier : Nat) (before : Stmt), earlier < position → steps[earlier]? = some before →
              name.text ∉ before.clearedTables := by
  have schedulable : Schedulable parity := {
    distinct := by decide
    plainHeads := by decide
    readNames := by decide }
  obtain ⟨compiled, lowered⟩ := exists_result (show (lowerProgram parity .seminaive true).result.isOk by
    decide +kernel)
  obtain ⟨steps, isMain, complete⟩ := steps_read_complete schedulable lowered
  exact ⟨schedulable, compiled, steps, lowered, isMain, complete⟩

/-- The number of items, counted in a head. -/
def headCount : Program where
  types := []
  relations :=
    [⟨⟨["once"]⟩, [⟨"a", ⟨["number"]⟩⟩], .standard, []⟩,
      ⟨⟨["total"]⟩, [⟨"a", ⟨["number"]⟩⟩], .standard, [.output]⟩,
      ⟨⟨["item"]⟩, [⟨"a", ⟨["number"]⟩⟩], .standard, []⟩]
  clauses :=
    [⟨⟨⟨["once"]⟩, [.constant (.number 0)]⟩, []⟩,
      ⟨⟨⟨["item"]⟩, [.constant (.number 1)]⟩, []⟩,
      ⟨⟨⟨["item"]⟩, [.constant (.number 2)]⟩, []⟩,
      ⟨⟨⟨["total"]⟩, [.aggregate .count none [.positive ⟨["item"]⟩ [.var "y"]]]⟩, [.positive ⟨["once"]⟩ [.var "x"]]⟩]

/-- The analyses know nothing of aggregates in heads: the items are counted one step before they are computed. -/
theorem headCount_reads_too_early :
    (tableNames headCount).Nodup ∧ stratumOf? (strata headCount) ⟨["item"]⟩ = some 2 ∧
      ((lowerProgram headCount .seminaive false).result.toOption.map fun compiled =>
        match compiled.main.tree with
        | .sequence steps => steps.map Stmt.readTables
        | _ => []) = some [[], ["once", "item"], []] := by
  decide +kernel

end Lowering

end DatalogRam
