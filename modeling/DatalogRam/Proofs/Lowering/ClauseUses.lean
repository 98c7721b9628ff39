import DatalogRam.Proofs.Evaluation.Tables
import DatalogRam.Proofs.Lowering.ValueReads
import DatalogRam.Proofs.Ram.Uses

/-!
# What the code of clauses uses

The query of a clause names the tables of the clause's atoms, with a value for each of their columns where it inserts
or looks for rows, reads columns that these tables have, and evaluates no wildcard if the clause is definite. This is
`ClauseUse`, and it holds of every use in the query: of its scans, its aggregates, its conditions and its middle.
-/

namespace DatalogRam.Lowering

open Ram

variable {ordinal : String → Int64} {plan : Plan} {clause : Clause} {rows : List Atom} {sites : Sites}

/-! ## Uses -/

/-- The parts of an atom's relation whose tables the version of a query may use. -/
inductive Version.Uses (version : Version) (clause : Clause) : Part → Atom → Prop
  | full {atom : Atom} (isNamed : atom ∈ clause.named) : Version.Uses version clause .full atom
  | delta {position : Nat} {atom : Atom} (atPosition : clause.positiveAtoms[position]? = some atom)
      (reads : version.readsDelta position = true) : Version.Uses version clause .delta atom
  | fresh (incremental : version.isIncremental = true) : Version.Uses version clause .fresh clause.head

/-- A table that the version of a query may use for an atom. -/
def IsTableOf (plan : Plan) (clause : Clause) (version : Version) (relation : String) (atom : Atom) : Prop :=
  plan.program.declares atom.relation = true ∧
    ∃ part, version.Uses clause part atom ∧ relation = part.table atom.relation

/-- The scans around a use bind rows of the clause's atoms. -/
def ScansAtoms (plan : Plan) (clause : Clause) (version : Version) (scans : Scans) : Prop :=
  ∀ entry ∈ scans, ∃ atom, clause.positiveAtoms[entry.1]? = some atom ∧ IsTableOf plan clause version entry.2 atom

/-- What can be said of a use in the code of a clause, which may answer or not, and which reads the rows of some
atoms. -/
structure ClauseUse (plan : Plan) (clause : Clause) (version : Version) (answers : Bool) (rows : List Atom)
    (use : Use) : Prop where
  /-- It names a table of one of the clause's atoms, with a value for each column, -/
  table : ∀ relation, use.relation? = some relation → ∃ atom, IsTableOf plan clause version relation atom ∧
    ∀ values, use.row? = some values → values.length = atom.arity + plan.auxiliary
  /-- reads columns that there are, -/
  reads : ∀ expr ∈ use.exprs, ReadsColumns rows plan.auxiliary expr
  /-- and evaluates no wildcard, except for that of a negated atom in an answer. -/
  asks : clause.Definite →
    use.AsksOnly ∨ use.isAnswer = true ∧ clause.NegatesOpenly ∧ ∀ expr ∈ use.exprs, Asked expr
  answers : use.isAnswer = true → answers = true

variable {version : Version} {answers : Bool}

/-- A value that the code of a clause may evaluate reads columns that there are, and it is none of a wildcard if the
clause is definite. -/
structure Evaluable (plan : Plan) (clause : Clause) (rows : List Atom) (value : Expr) : Prop where
  reads : ReadsColumns rows plan.auxiliary value
  defined : clause.Definite → value.IsDefined

namespace Evaluable

theorem of_valueCode (fit : sites.Fit rows) {arg : Argument} {value : Expr}
    (code : valueCode ordinal sites arg = some value) (definite : clause.Definite → arg.isDefinite = true) :
    Evaluable plan clause rows value where
  reads := reads_of_valueCode fit plan.auxiliary code
  defined isDefinite := isDefined_of_valueCode code (definite isDefinite)

theorem element {tuple column : Nat}
    (inside : ∀ atom, rows[tuple]? = some atom → column < atom.arity + plan.auxiliary) :
    Evaluable plan clause rows (.element tuple column) where
  reads := .element inside
  defined _ := by simp [Expr.IsDefined, Expr.leaves, Expr.isUndefined]

theorem signed (number : Int64) : Evaluable plan clause rows (.signed number) where
  reads := reads_of_no_elements fun _ _ => by simp [Expr.leaves]
  defined _ := by simp [Expr.IsDefined, Expr.leaves, Expr.isUndefined]

end Evaluable

namespace ClauseUse

theorem value {expr : Expr} (evaluable : Evaluable plan clause rows expr) :
    ClauseUse plan clause version answers rows (.value expr) where
  table _ named := nomatch named
  reads := List.forall_mem_singleton.2 evaluable.reads
  asks definite := .inl (List.forall_mem_singleton.2 (evaluable.defined definite))
  answers isAnswer := nomatch isAnswer

/-- Looking at a table without values. -/
theorem ofTable {use : Use} {relation : String} {atom : Atom} (isTable : IsTableOf plan clause version relation atom)
    (isUse : use = .scan relation ∨ use = .fold relation ∨ use = .emptiness relation) :
    ClauseUse plan clause version answers rows use where
  table other named := by
    refine ⟨atom, ?_, fun values isRow => ?_⟩
    · rcases isUse with rfl | rfl | rfl <;> cases named <;> exact isTable
    · rcases isUse with rfl | rfl | rfl <;> cases isRow
  reads expr member := by rcases isUse with rfl | rfl | rfl <;> cases member
  asks _ := by rcases isUse with rfl | rfl | rfl <;> exact .inl fun _ member => absurd member List.not_mem_nil
  answers isAnswer := by rcases isUse with rfl | rfl | rfl <;> cases isAnswer

theorem check {relation : String} {atom : Atom} {values : List Expr}
    (isTable : IsTableOf plan clause version relation atom) (count : values.length = atom.arity + plan.auxiliary)
    (reads : ∀ value ∈ values, ReadsColumns rows plan.auxiliary value)
    (asked : clause.Definite → ∀ value ∈ values, Asked value) :
    ClauseUse plan clause version answers rows (.check relation values) where
  table other named := by
    cases named
    exact ⟨atom, isTable, fun _ isRow => Option.some.inj isRow ▸ count⟩
  reads := reads
  asks definite := .inl (asked definite)
  answers isAnswer := nomatch isAnswer

theorem insert {relation : String} {atom : Atom} {values : List Expr}
    (isTable : IsTableOf plan clause version relation atom) (count : values.length = atom.arity + plan.auxiliary)
    (each : ∀ value ∈ values, Evaluable plan clause rows value) :
    ClauseUse plan clause version answers rows (.insert relation values) where
  table other named := by
    cases named
    exact ⟨atom, isTable, fun _ isRow => Option.some.inj isRow ▸ count⟩
  reads value member := (each value member).reads
  asks definite := .inl fun value member => (each value member).defined definite
  answers isAnswer := nomatch isAnswer

end ClauseUse

/-! ## Conditions -/

/-- An existence check for the values of an atom's arguments, with wildcards for the bookkeeping. -/
theorem uses_existence {atom : Atom} {values : List Expr} (isNamed : atom ∈ clause.named)
    (declared : plan.program.declares atom.relation = true) (fit : sites.Fit rows)
    (codes : valueCodes ordinal sites atom.args = some values)
    (asked : clause.Definite → ∀ arg ∈ atom.args, arg = .unnamed ∨ arg.isDefinite = true) :
    (existence atom.relation.text values plan.auxiliary).Uses (ClauseUse plan clause version answers rows) := by
  refine .check (.check ⟨declared, .full, .full isNamed, rfl⟩ ?_ ?_ ?_)
  · rw [List.length_append, List.length_replicate, ← (forall₂_of_valueCodes codes).length_eq]
    rfl
  · intro value member
    rcases List.mem_append.1 member with isValue | isPadding
    · obtain ⟨arg, _, code⟩ := exists_of_valueCodes codes isValue
      exact reads_of_valueCode fit _ code
    · rw [List.eq_of_mem_replicate isPadding]
      exact reads_of_no_elements fun _ _ => by simp [Expr.leaves]
  · intro definite value member
    rcases List.mem_append.1 member with isValue | isPadding
    · obtain ⟨arg, isArg, code⟩ := exists_of_valueCodes codes isValue
      exact asked_of_valueCode code (asked definite arg isArg)
    · rw [List.eq_of_mem_replicate isPadding]
      exact .inl rfl

theorem uses_of_constraintCode {literal : Literal} {condition : Cond} (fit : sites.Fit rows)
    (isLiteral : literal ∈ clause.evaluated)
    (code : constraintCode ordinal plan sites literal = some (some condition)) :
    condition.Uses (ClauseUse plan clause version answers rows) := by
  cases literal with
  | positive => cases code
  | negative relation args =>
      obtain ⟨declared, values, areValues, same⟩ := constraintCode_negative_eq_some code
      cases same
      let atom : Atom := ⟨relation, args⟩
      have isNamed : atom ∈ clause.named := Clause.mem_named isLiteral rfl
      exact uses_existence isNamed declared fit areValues fun definite =>
        Argument.areAsked_iff.1 (definite.evaluated isLiteral)
  | comparison op left right =>
      obtain ⟨leftValue, rightValue, isLeft, isRight, same⟩ := constraintCode_comparison_eq_some code
      cases same
      have both (definite : clause.Definite) := Bool.and_eq_true_iff.1 (definite.evaluated isLiteral)
      exact .compare (.value (.of_valueCode fit isLeft fun definite => (both definite).1))
        (.value (.of_valueCode fit isRight fun definite => (both definite).2))
  | truth value => cases value <;> cases code <;> exact fun _ member => absurd member List.not_mem_nil

/-- The comparison of a column with an argument of an atom. -/
theorem uses_match {relation : Name} {args : List Argument} {arg : Argument} {value : Expr} {tuple column : Nat}
    (fit : sites.Fit rows) (isLiteral : .positive relation args ∈ clause.evaluated)
    (isArg : arg ∈ args) (isNamed : arg ≠ .unnamed) (fits : Site.Fits rows ⟨tuple, column⟩)
    (code : valueCode ordinal sites arg = some value) :
    (Cond.compare .eq (.element tuple column) value).Uses (ClauseUse plan clause version answers rows) := by
  have definite (isDefinite : clause.Definite) : arg.isDefinite = true :=
    (Argument.areAsked_iff.1 (isDefinite.evaluated isLiteral) arg isArg).resolve_left isNamed
  have inside (atom : Atom) (atTuple : rows[tuple]? = some atom) : column < atom.arity + plan.auxiliary :=
    Nat.lt_of_lt_of_le (fits atom atTuple) (Nat.le_add_right _ _)
  exact .compare (.value (.element inside)) (.value (.of_valueCode fit code definite))

/-! ## Queries -/

variable {within : Scans → Prop} {holds : Use → Prop} {operation result : Op} {id : Nat}

theorem uses_guardedBy {conditions : List Cond} (each : ∀ condition ∈ conditions, condition.Uses holds)
    (nested : operation.Uses within holds) : (guardedBy conditions operation).Uses within holds := by
  rw [guardedBy]
  split
  · exact nested
  · exact .filter (.allOf each) nested

theorem uses_underGuard {guard : Option Cond} (checks : ∀ condition, guard = some condition → condition.Uses holds)
    (nested : operation.Uses within holds) : (Op.underGuard operation guard).Uses within holds := by
  cases guard with
  | none => exact nested
  | some condition => exact .filter (checks condition rfl) nested

/-- The nested operation of a query uses what a clause may use, in scans of its atoms. -/
abbrev UsesOf (plan : Plan) (clause : Clause) (version : Version) (answers : Bool) (operation : Op) : Prop :=
  operation.Uses (ScansAtoms plan clause version) (ClauseUse plan clause version answers clause.positiveAtoms)

theorem uses_of_scanCode {position : Nat} {atom : Atom} (atPosition : clause.positiveAtoms[position]? = some atom)
    (declared : plan.program.declares atom.relation = true) (nested : UsesOf plan clause version answers operation)
    (code : scanCode ordinal version (clauseFrame clause).sites atom position operation = some result) :
    UsesOf plan clause version answers result := by
  obtain ⟨conditions, areConditions, same⟩ := Option.bind_eq_some_iff.1 code
  cases same
  have isLiteral := clause.body_subset_evaluated (Clause.mem_positiveAtoms.1 (List.mem_of_getElem? atPosition))
  have isTable : IsTableOf plan clause version (version.source position atom.relation) atom := by
    refine ⟨declared, ?_⟩
    rw [Version.source]
    split
    · next reads => exact ⟨.delta, .delta atPosition reads, rfl⟩
    · exact ⟨.full, .full (Clause.mem_named isLiteral rfl), rfl⟩
  refine .scan (.ofTable isTable (.inl rfl)) (fun scans within => ?_) (uses_guardedBy (fun condition member => ?_) nested)
  · exact List.forall_mem_cons.2 ⟨⟨atom, atPosition, isTable⟩, within⟩
  · obtain ⟨⟨arg, column⟩, isEntry, isMatch⟩ := mem_of_filterMapM areConditions member
    rw [matchBodyCode] at isMatch
    split at isMatch
    · cases isMatch
    · next notFree =>
        obtain ⟨value, isValue, same⟩ := Option.map_eq_some_iff.1 isMatch
        cases same
        have isNamed : arg ≠ .unnamed := by
          rintro rfl
          exact notFree rfl
        refine uses_match (fit_clauseFrame clause) isLiteral (List.fst_mem_of_mem_zipIdx isEntry) isNamed ?_ isValue
        intro other atTuple
        rw [atPosition] at atTuple
        cases atTuple
        exact List.snd_lt_of_mem_zipIdx isEntry

/-- The value that an aggregate folds. -/
theorem evaluable_of_target (fit : sites.Fit rows) {aggregate : Aggregate}
    (isAggregate : aggregate ∈ clauseAggregates clause) {value : Option Expr}
    (code : targetCode ordinal sites aggregate.target = some value) :
    ∀ expr, value = some expr → Evaluable plan clause rows expr := by
  cases isTarget : aggregate.target with
  | none =>
      rw [isTarget] at code
      cases code
      exact fun _ isExpr => nomatch isExpr
  | some target =>
      rw [isTarget] at code
      obtain ⟨found, isFound, rfl⟩ := Option.map_eq_some_iff.1 code
      rintro _ ⟨⟩
      exact .of_valueCode fit isFound fun definite => definite.target isAggregate isTarget

theorem uses_of_aggregateCode {aggregate : Aggregate} {tuple : Nat} (isAggregate : aggregate ∈ clauseAggregates clause)
    (behind : clause.positiveAtoms.length ≤ tuple) (nested : UsesOf plan clause version answers operation)
    (code : aggregateCode ordinal plan (clauseFrame clause).sites aggregate tuple operation = some result) :
    UsesOf plan clause version answers result := by
  obtain ⟨atom, inner, comparisons, constraints, value, single, declared, areSites, areConstraints, isValue, rfl⟩ :=
    aggregateCode_eq_some code
  obtain ⟨extended, each⟩ := aggregateSitesCode_spec areSites
  have fit := (fit_clauseFrame clause).of_extended extended behind
  have isLiteral : .positive atom.relation atom.args ∈ clause.evaluated :=
    Clause.mem_evaluated isAggregate (Literal.mem_positiveAtoms.1 (single ▸ List.mem_singleton_self atom))
  have isTable : IsTableOf plan clause version atom.relation.text atom :=
    ⟨declared, .full, .full (Clause.mem_named isLiteral rfl), rfl⟩
  refine .aggregate (.ofTable isTable (.inr (.inl rfl)))
    (fun expr isExpr => .value (evaluable_of_target fit isAggregate isValue expr isExpr))
    (.allOf fun condition member => ?_) nested
  rcases List.mem_append.1 member with isComparison | isConstraint
  · obtain ⟨between, isBetween, ⟨arg, column⟩, isEntry, isNamed, found, isFound, rfl⟩ := each condition isComparison
    exact uses_match ((fit_clauseFrame clause).of_extended isBetween behind) isLiteral
      (List.fst_mem_of_mem_zipIdx isEntry) isNamed (Site.fits_of_le behind) isFound
  · obtain ⟨literal, inBody, isCondition⟩ := mem_of_filterMapM areConstraints isConstraint
    exact uses_of_constraintCode fit (Clause.mem_evaluated isAggregate inBody) isCondition

/-- Around a middle that uses what a clause may use, the query of a rule does so, too. -/
theorem uses_of_ruleCode {middle : Frame → Option Op} {statement : Stmt}
    (code : ruleCode ordinal plan clause version middle = some statement)
    (isMiddle : ∀ inner, middle (clauseFrame clause) = some inner → UsesOf plan clause version answers inner) :
    statement.Uses fun scans use =>
      ScansAtoms plan clause version scans ∧ ClauseUse plan clause version answers clause.positiveAtoms use := by
  obtain ⟨frame, inner, constrained, aggregated, operation, isFrame, isInner, isConstrained, isAggregated, isScanned,
    rfl⟩ := ruleCode_eq_some code
  obtain ⟨rfl, declared⟩ := frameOf_eq_some isFrame
  have constrainedUses : UsesOf plan clause version answers constrained :=
    of_foldrM (UsesOf plan clause version answers) (fun literal member before after nested code => by
      obtain ⟨guard, isGuard, rfl⟩ := Option.map_eq_some_iff.1 code
      refine uses_underGuard (fun condition found => ?_) nested
      exact uses_of_constraintCode (fit_clauseFrame clause) (clause.body_subset_evaluated member) (found ▸ isGuard))
      (isMiddle inner isInner) isConstrained
  have aggregatedUses : UsesOf plan clause version answers aggregated :=
    of_foldrM (UsesOf plan clause version answers) (fun entry member before after nested code =>
      uses_of_aggregateCode (List.fst_mem_of_mem_zipIdx member) (Nat.le_add_right _ _) nested code)
      constrainedUses isAggregated
  have scannedUses : UsesOf plan clause version answers operation :=
    of_foldrM (UsesOf plan clause version answers) (fun entry member before after nested code =>
      uses_of_scanCode (List.mem_zipIdx_iff_getElem?.1 member) (declared _ (List.fst_mem_of_mem_zipIdx member)) nested
        code) aggregatedUses isScanned
  exact scannedUses [] fun _ member => absurd member List.not_mem_nil

/-! ## Insertions -/

/-- The level of a head reads the second bookkeeping column of the atoms' rows. -/
theorem leaf_of_headLevelCode {atoms : List Atom} : ∀ leaf ∈ (headLevelCode atoms).leaves,
    (∃ number, leaf = .signed number) ∨
      ∃ tuple atom, atoms[tuple]? = some atom ∧ leaf = .element tuple (atom.arity + 1) := by
  have levels : ∀ leaf ∈ Expr.leavesOfAll (levelCodes atoms), ∃ tuple atom, atoms[tuple]? = some atom ∧
      leaf = .element tuple (atom.arity + 1) := by
    intro leaf member
    obtain ⟨level, isLevel, isLeaf⟩ := Expr.mem_leavesOfAll.1 member
    obtain ⟨⟨atom, tuple⟩, isEntry, rfl⟩ := List.mem_map.1 isLevel
    exact ⟨tuple, atom, List.mem_zipIdx_iff_getElem?.1 isEntry, List.mem_singleton.1 isLeaf⟩
  intro leaf member
  unfold headLevelCode at member
  split at member
  · exact .inl ⟨_, List.mem_singleton.1 member⟩
  · next level isLevel =>
      rw [isLevel] at levels
      simp only [Expr.leaves, Expr.leavesOfAll, List.append_nil, List.mem_append, List.mem_singleton] at member levels
      exact member.elim (fun isLevel => .inr (levels leaf isLevel)) fun isOne => .inl ⟨_, isOne⟩
  · simp only [Expr.leaves, Expr.leavesOfAll, List.append_nil, List.mem_append, List.mem_singleton] at member
    exact member.elim (fun isLevel => .inr (levels leaf isLevel)) fun isOne => .inl ⟨_, isOne⟩

theorem evaluable_headLevel (isProvenance : plan.strategy = .provenance) :
    Evaluable plan clause rows (headLevelCode rows) where
  reads tuple column member atom atTuple := by
    rw [auxiliary_of_provenance isProvenance]
    rcases leaf_of_headLevelCode _ member with ⟨_, same⟩ | ⟨other, found, atOther, same⟩
    · cases same
    · cases same
      rw [atTuple] at atOther
      cases atOther
      omega
  defined _ leaf member := by
    rcases leaf_of_headLevelCode leaf member with ⟨_, rfl⟩ | ⟨_, _, _, rfl⟩ <;> rfl

/-- The values of an inserted row: those of the head's arguments, and the bookkeeping. -/
theorem evaluable_row {level : Expr} {logical auxiliary : List Expr} (fit : sites.Fit rows)
    (isLevel : plan.strategy = .provenance → Evaluable plan clause rows level)
    (areLogical : valueCodes ordinal sites clause.head.args = some logical)
    (isAuxiliary : bookkeeping plan clause id level = some auxiliary) :
    ∀ value ∈ logical ++ auxiliary, Evaluable plan clause rows value := by
  intro value member
  rcases List.mem_append.1 member with isLogical | isKept
  · obtain ⟨arg, isArg, isCode⟩ := exists_of_valueCodes areLogical isLogical
    exact .of_valueCode fit isCode fun definite => definite.head arg isArg
  · rcases (bookkeeping_eq_some isAuxiliary).2 value isKept with ⟨number, rfl⟩ | ⟨isProvenance, rfl⟩
    · exact .signed number
    · exact isLevel isProvenance

theorem uses_of_headCode {level : Expr} (declared : plan.program.declares clause.head.relation = true)
    (fit : sites.Fit clause.positiveAtoms)
    (isLevel : plan.strategy = .provenance → Evaluable plan clause clause.positiveAtoms level)
    (code : headCode ordinal plan clause id sites level version.isIncremental = some operation) :
    UsesOf plan clause version answers operation := by
  obtain ⟨logical, auxiliary, areLogical, isAuxiliary, rfl⟩ := headCode_eq_some code
  have isFull : IsTableOf plan clause version clause.head.relation.text clause.head :=
    ⟨declared, .full, .full List.mem_cons_self, rfl⟩
  have isTarget : IsTableOf plan clause version
      (if version.isIncremental then freshName clause.head.relation else clause.head.relation.text) clause.head := by
    split
    · next incremental => exact ⟨declared, .fresh, .fresh incremental, rfl⟩
    · exact isFull
  have count : (logical ++ auxiliary).length = clause.head.arity + plan.auxiliary := by
    rw [List.length_append, (bookkeeping_eq_some isAuxiliary).1, ← (forall₂_of_valueCodes areLogical).length_eq]
    rfl
  refine uses_underGuard (fun condition found => ?_)
    (.insert (.insert isTarget count (evaluable_row fit isLevel areLogical isAuxiliary)))
  rw [guardCode] at found
  split at found
  · cases found
    exact uses_existence List.mem_cons_self declared fit areLogical fun definite arg isArg =>
      .inr (definite.head arg isArg)
  · split at found <;> cases found
    exact List.forall_mem_singleton.2 (.ofTable isFull (.inr (.inr rfl)))

/-- The query of a clause inserts, and its uses are those of the clause. -/
theorem uses_of_clauseCode {statement : Stmt} (versioned : clause.isFact = true → version.isIncremental = false)
    (code : clauseCode ordinal plan clause id version = some statement) :
    statement.Uses fun scans use =>
      ScansAtoms plan clause version scans ∧ ClauseUse plan clause version false clause.positiveAtoms use := by
  obtain ⟨declared, query, isQuery, rfl⟩ := clauseCode_eq_some code
  suffices uses : query.Uses fun scans use =>
      ScansAtoms plan clause version scans ∧ ClauseUse plan clause version false clause.positiveAtoms use by
    rw [withText]
    split <;> exact uses
  rw [clauseQuery] at isQuery
  split at isQuery
  · next isFact =>
      obtain ⟨operation, isInsertion, rfl⟩ := factCode_eq_some isQuery
      rw [← versioned isFact] at isInsertion
      exact uses_of_headCode declared (Sites.fit_empty _) (fun _ => .signed 0) isInsertion []
        fun _ member => absurd member List.not_mem_nil
  · exact uses_of_ruleCode isQuery fun inner isInner =>
      uses_of_headCode declared (fit_clauseFrame clause) evaluable_headLevel isInner

end DatalogRam.Lowering
