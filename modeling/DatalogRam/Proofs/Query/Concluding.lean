import DatalogRam.Proofs.Query.Instances

/-!
# Running the query of a clause with aggregates

For every choice of rows that is selected for its positive atoms the query folds the aggregates, tests the other
literals and inserts the head: it does what `conclude` does. So `returns_concluded` says which rows it adds.
-/

namespace DatalogRam.Lowering

open Machine Ram

variable {ordinal : String → Int64} {plan : Plan} {clause : Clause} {id : Nat} {args : Row}
variable {start store : Store} {choice : List Row} {state : State} {aggregate : Aggregate}

/-! ## One choice of rows -/

theorem insertionCode_complete {head : Atom} {logical : List Expr} (noBook : plan.auxiliary = 0) :
    insertionCode plan head logical [] false = Op.underGuard (.insert head.relation.text logical)
      (if head.arity = 0 then some (.isEmpty head.relation.text) else none) := by
  rw [insertionCode, List.append_nil, guardCode, noBook]
  rfl

/-- Without bookkeeping columns only a head without columns is guarded. -/
theorem unguarded_complete {head : Atom} {row : Row} :
    Unguarded 0 .complete head row store ↔ (head.arity = 0 → ∀ other, other ∉ store.rows head.relation.text) := by
  have unlooked : ¬(0 < 0 ∨ Version.complete.isIncremental = true) :=
    fun either => either.elim (Nat.lt_irrefl 0) Bool.false_ne_true
  rw [Unguarded, if_neg unlooked]
  split
  · next empty => exact ⟨fun none _ => none, fun none => none empty⟩
  · next wide => exact iff_of_true trivial fun empty => absurd empty wide

/-- The insertion of a head inserts its row, unless the guard for a head without columns keeps it out. -/
theorem returns_insertOnce {sites : Sites} {words : Valuation} {results : Aggregate → Int64} {level : Expr} {inner : Op}
    (strategy : plan.strategy = .seminaive) (computed : ∀ arg ∈ clause.head.args, arg.isComputed = true)
    (reads : ∀ name, Reads sites state.bindings words name)
    (aggregates : ∀ aggregate, ReadsResult sites state.bindings results aggregate)
    (code : headCode ordinal plan clause id sites level false = some inner) :
    Returns (runOp args inner) state .proceed
      { state with store :=
          insertOnce clause.head (Argument.valuesWith ordinal words results clause.head.args) state.store } := by
  obtain ⟨logical, auxiliary, areLogical, isAuxiliary, rfl⟩ := headCode_eq_some code
  have noBook := auxiliary_of_seminaive strategy
  have row : Returns (evalExprs args logical) state _ state :=
    returns_valuesWith (Argument.areComputed_iff.2 computed) areLogical (fun name _ => reads name)
      fun aggregate _ => aggregates aggregate
  have inserted : Returns (runOp args (.insert clause.head.relation.text logical)) state .proceed
      { state with
        store := state.store.insert clause.head.relation.text
          (Argument.valuesWith ordinal words results clause.head.args) } := row.bind rfl
  rw [bookkeeping, strategy] at isAuxiliary
  cases isAuxiliary
  rw [insertionCode_complete noBook, insertOnce]
  split
  · next empty =>
      refine returns_filter (decides_isEmpty _) (fun isEmpty => ?_) fun filled => ⟨rfl, ?_⟩
      · rw [if_pos (unguarded_complete.2 fun _ => isEmpty)]
        exact inserted
      · rw [if_neg fun unguarded => filled (unguarded_complete.1 unguarded empty)]
  · next wide =>
      rw [if_pos (unguarded_complete.2 fun empty => absurd empty wide)]
      exact inserted

section Choice

variable (folding : clause.Folding plan.program)
  (length : choice.length = clause.positiveAtoms.length)
  (shaped : Shaped .complete 0 clause.positiveAtoms state.store)
  (selected : Selected ordinal .complete clause.positiveAtoms state.store choice)

include folding length shaped selected

/-- An aggregate of a clause finds the variables of the clause's atoms defined outside. -/
theorem sees_clauseFrame (member : aggregate ∈ clauseAggregates clause) :
    Sees (clauseFrame clause).sites clause.binds (valuationOf clause.positiveAtoms choice) choice aggregate where
  defined := by
    intro name mentioned
    constructor
    · intro binds
      obtain ⟨site, defined⟩ := binds_iff_definition.1 binds
      exact ⟨site, definition?_clauseFrame_of_atoms defined⟩
    · rintro ⟨site, defined⟩
      rcases definition?_clauseFrame defined with inAtoms | ⟨_, literal, inBody, other, equates, _⟩
      · exact binds_iff_definition.2 ⟨site, inAtoms⟩
      · exact (folding.unequated aggregate member name mentioned).resolve_right fun unequated =>
          unequated literal inBody other equates
  reads := by
    intro bindings bound name _ binds other defined
    obtain ⟨site, isOwn⟩ := binds_iff_definition.1 binds
    rw [definition?_clauseFrame_of_atoms isOwn] at defined
    cases defined
    exact Selected.reads shaped length selected bound name other isOwn

/-- A clause has an instance for a choice if every aggregate has a value and the other literals pass. -/
theorem concludesFrom_iff
    (values : ∀ aggregate ∈ clauseAggregates clause, (aggregate.result? ordinal (storedRows state.store) clause.binds
      (valuationOf clause.positiveAtoms choice)).isSome) :
    ConcludesFrom ordinal clause state.store choice ↔
      ∀ literal ∈ clause.body, PassesWith ordinal 0 (frameWords ordinal clause state.store choice)
        (frameResults ordinal clause state.store choice) state.store literal := by
  have results : ∀ aggregate ∈ clauseAggregates clause,
      aggregate.result? ordinal (storedRows state.store) clause.binds (frameWords ordinal clause state.store choice) =
        some (frameResults ordinal clause state.store choice aggregate) := by
    intro aggregate member
    obtain ⟨value, isValue⟩ := Option.isSome_iff_exists.1 (values aggregate member)
    rw [frameResults_eq length member, result?_frameWords length, isValue]
    rfl
  have same : ∀ literal ∈ clause.body,
      literal.HoldsWith ordinal (storedRows state.store) (frameWords ordinal clause state.store choice)
          (frameResults ordinal clause state.store choice) ↔
        PassesWith ordinal 0 (frameWords ordinal clause state.store choice)
          (frameResults ordinal clause state.store choice) state.store literal := by
    intro literal inBody
    cases isAtom : literal.positiveAtom? with
    | none => exact (passesWith_iff_holdsWith isAtom).symm
    | some atom =>
        cases literal with
        | positive relation terms =>
            have member : (⟨relation, terms⟩ : Atom) ∈ clause.positiveAtoms := Clause.mem_positiveAtoms.2 inBody
            obtain ⟨position, atPosition⟩ := List.getElem?_of_mem member
            obtain ⟨row, isRow, long⟩ := Selected.exists_row shaped length selected position _ atPosition
            obtain ⟨other, isOther, inTable, isMatch⟩ := selected position row isRow
            rw [atPosition, Option.some.injEq] at isOther
            subst isOther
            rw [Nat.add_zero] at long
            rw [List.take_of_length_le (Nat.le_of_eq long)] at isMatch
            refine iff_of_true ⟨row, inTable, ?_⟩ trivial
            refine (match_congr (folding.direct _ member) fun name isArg => ?_).2 isMatch
            exact frameWords_of_binds length (Clause.binds_iff.2 ⟨_, member, isArg⟩)
        | _ => cases isAtom
  constructor
  · exact fun concludes literal inBody => (same literal inBody).1 (concludes.body literal inBody)
  · exact fun passes => ⟨fun literal inBody => (same literal inBody).2 (passes literal inBody), results⟩

/-- What is inside the scans concludes from the choice. -/
theorem leaves_choice {level : Expr} {inner constrained operation : Op} (strategy : plan.strategy = .seminaive)
    (fitting : ∀ aggregate ∈ clauseAggregates clause, Fitting aggregate state.store)
    (isInner : headCode ordinal plan clause id (clauseFrame clause).sites level false = some inner)
    (isConstrained : constrainedCode ordinal plan (clauseFrame clause).sites clause.body inner = some constrained)
    (isAggregated : aggregatedCode ordinal plan (clauseFrame clause) constrained = some operation)
    (bound : Bound state.bindings choice) :
    Leaves (runOp args operation) state choice (conclude ordinal clause choice state.store) := by
  have noBook := auxiliary_of_seminaive strategy
  have folds (aggregate : Aggregate) (member : aggregate ∈ clauseAggregates clause) :
      Folds (clauseFrame clause).sites clause.binds (valuationOf clause.positiveAtoms choice) choice state.store
        aggregate :=
    ⟨folding.aggregates aggregate member, sees_clauseFrame folding length shaped selected member,
      fitting aggregate member⟩
  refine leaves_aggregated noBook folds isAggregated (List.prefix_refl choice) length bound
    (fun values bindings allBound => ⟨bindings, bound_of_begins allBound (List.prefix_append _ _), ?_⟩) fun fails => ?_
  · have reads (name : String) : Reads (clauseFrame clause).sites bindings
        (frameWords ordinal clause state.store choice) name := reads_frameWords length shaped selected allBound
    have results (aggregate : Aggregate) : ReadsResult (clauseFrame clause).sites bindings
        (frameResults ordinal clause state.store choice) aggregate := readsResult_frameResults length allBound
    have means := concludesFrom_iff folding length shaped selected values
    refine returns_constrainedCode (fun literal inBody found code =>
      checks_constraint (folding.body literal inBody) (fun name _ => reads name)
        (fun aggregate _ => results aggregate) code)
      isConstrained (fun passes => ?_) fun fails => ?_
    · rw [noBook] at passes
      rw [conclude, if_pos (means.2 passes)]
      exact returns_insertOnce strategy folding.head reads results isInner
    · rw [noBook] at fails
      rw [conclude, if_neg fun concludes => fails (means.1 concludes)]
      exact ⟨rfl, rfl⟩
  · rw [conclude, if_neg fun concludes => fails fun aggregate member => ?_]
    have isResult := concludes.results aggregate member
    rw [result?_frameWords length] at isResult
    exact Option.isSome_of_eq_some isResult

end Choice

/-! ## One choice after another -/

/-- The head's relation, in the store, is none of those that a clause reads. -/
def ReadsElsewhere (clause : Clause) : Prop :=
  ∀ literal ∈ clause.evaluated, ∀ atom, literal.atom? = some atom → atom.relation.text ≠ clause.head.relation.text

/-- What holds of the store while the query runs. -/
structure Concluding (clause : Clause) (start store : Store) : Prop
    extends Extends clause.head.relation.text start store where
  shaped : HeadShaped 0 clause store

theorem length_conclusion : (conclusion ordinal clause store choice).length = clause.head.arity := by
  rw [conclusion, Argument.length_valuesWith]
  rfl

theorem Extends.insertOnce (store : Store) (head : Atom) (row : Row) :
    Extends head.relation.text store (Lowering.insertOnce head row store) := by
  rw [Lowering.insertOnce]
  split
  · refine ⟨fun table other => ?_, fun row member => ?_⟩
    · rw [Store.rows_insert, if_neg other]
    · rw [Store.rows_insert, if_pos rfl, Rows.mem_insert]
      exact .inr member
  · exact Extends.refl _ _

/-- A row that the guard keeps out is there already. -/
theorem mem_insertOnce {row other : Row} (shaped : HeadShaped 0 clause store)
    (length : row.length = clause.head.arity) :
    other ∈ (insertOnce clause.head row store).rows clause.head.relation.text ↔
      other ∈ store.rows clause.head.relation.text ∨ other = row := by
  rw [insertOnce]
  split
  · rw [Store.rows_insert, if_pos rfl, Rows.mem_insert, or_comm]
  · next guarded =>
      rw [unguarded_complete] at guarded
      simp only [Classical.not_imp, not_forall, not_not] at guarded
      obtain ⟨empty, known, member⟩ := guarded
      have isNil {some : Row} (long : some.length = clause.head.arity) : some = [] :=
        List.length_eq_zero_iff.1 (long.trans empty)
      rw [isNil (shaped known member)] at member
      rw [isNil length]
      exact ⟨.inl, fun either => either.elim id fun same => same ▸ member⟩

section Congruence

variable (elsewhere : ReadsElsewhere clause) (grown : Extends clause.head.relation.text start store)

include elsewhere grown

theorem storedRows_eq {literal : Literal} (member : literal ∈ clause.evaluated) {atom : Atom}
    (isAtom : literal.atom? = some atom) : storedRows store atom.relation = storedRows start atom.relation := by
  rw [storedRows, storedRows, grown.others _ (elsewhere literal member atom isAtom)]

theorem result?_storedRows (member : aggregate ∈ clauseAggregates clause) (valuation : Valuation) :
    aggregate.result? ordinal (storedRows store) clause.binds valuation =
      aggregate.result? ordinal (storedRows start) clause.binds valuation :=
  Aggregate.result?_congr_stored fun _ inBody _ isAtom =>
    storedRows_eq elsewhere grown (Clause.mem_evaluated member inBody) isAtom

theorem boundRows_eq (choice : List Row) :
    boundRows ordinal clause store choice = boundRows ordinal clause start choice := by
  rw [boundRows, boundRows]
  refine congrArg (choice ++ ·) (List.map_congr_left fun aggregate member => ?_)
  rw [resultRow, resultRow, result?_storedRows elsewhere grown member]

theorem conclusion_eq (choice : List Row) :
    conclusion ordinal clause store choice = conclusion ordinal clause start choice := by
  rw [conclusion, conclusion, frameWords, frameWords, frameResults, frameResults, boundRows_eq elsewhere grown]

theorem concludesFrom_congr (choice : List Row) :
    ConcludesFrom ordinal clause store choice ↔ ConcludesFrom ordinal clause start choice := by
  rw [ConcludesFrom, ConcludesFrom, frameWords, frameWords, frameResults, frameResults, boundRows_eq elsewhere grown]
  have body (valuation : Valuation) (results : Aggregate → Int64) {literal : Literal} (inBody : literal ∈ clause.body) :
      literal.HoldsWith ordinal (storedRows store) valuation results ↔
        literal.HoldsWith ordinal (storedRows start) valuation results :=
    Literal.holdsWith_congr fun atom isAtom =>
      storedRows_eq elsewhere grown (Clause.body_subset_evaluated clause inBody) isAtom
  constructor
  · rintro ⟨holds, values⟩
    refine ⟨fun literal inBody => (body _ _ inBody).1 (holds literal inBody), fun aggregate member => ?_⟩
    rw [← values aggregate member, result?_storedRows elsewhere grown member]
  · rintro ⟨holds, values⟩
    refine ⟨fun literal inBody => (body _ _ inBody).2 (holds literal inBody), fun aggregate member => ?_⟩
    rw [← values aggregate member, result?_storedRows elsewhere grown member]

end Congruence

theorem Concluding.conclude (concluding : Concluding clause start store) (choice : List Row) :
    Concluding clause start (conclude ordinal clause choice store) := by
  rw [Lowering.conclude]
  split
  · refine ⟨concluding.toExtends.trans (Extends.insertOnce store clause.head _), fun row member => ?_⟩
    rcases (mem_insertOnce concluding.shaped length_conclusion).1 member with before | rfl
    · exact concluding.shaped row before
    · exact length_conclusion
  · exact concluding

theorem mem_conclude {row : Row} (elsewhere : ReadsElsewhere clause) (concluding : Concluding clause start store) :
    row ∈ (conclude ordinal clause choice store).rows clause.head.relation.text ↔
      row ∈ store.rows clause.head.relation.text ∨
        ConcludesFrom ordinal clause start choice ∧ row = conclusion ordinal clause start choice := by
  have grown := concluding.toExtends
  rw [conclude, ← concludesFrom_congr elsewhere grown, ← conclusion_eq elsewhere grown]
  split
  · next concludes => rw [mem_insertOnce concluding.shaped length_conclusion, and_iff_right concludes]
  · next fails => exact ⟨.inl, fun either => either.resolve_right fun both => fails both.1⟩

/-- Concluding from one choice after another adds what is concluded from each of them at the start. -/
theorem Concluding.foldl (elsewhere : ReadsElsewhere clause) {visited : List (List Row)}
    (concluding : Concluding clause start store) :
    Concluding clause start
        (visited.foldl (fun store choice => Lowering.conclude ordinal clause choice store) store) ∧
      ∀ row, row ∈ (visited.foldl (fun store choice => Lowering.conclude ordinal clause choice store) store).rows
          clause.head.relation.text ↔
        row ∈ store.rows clause.head.relation.text ∨ ∃ choice ∈ visited,
          ConcludesFrom ordinal clause start choice ∧ row = conclusion ordinal clause start choice := by
  induction visited generalizing store with
  | nil => exact ⟨concluding, by simp⟩
  | cons choice rest ih =>
      obtain ⟨later, means⟩ := ih (concluding.conclude choice)
      refine ⟨later, fun row => (means row).trans ?_⟩
      rw [mem_conclude elsewhere concluding, or_assoc]
      simp only [List.mem_cons, exists_eq_or_imp]

/-! ## The whole query -/

theorem selected_of_same {version : Version} {atoms : List Atom} (same : SameTables version atoms start store)
    (selected : Selected ordinal version atoms start choice) : Selected ordinal version atoms store choice := by
  intro position row isRow
  obtain ⟨atom, atPosition, member, isMatch⟩ := selected position row isRow
  rw [← same position atom atPosition] at member
  exact ⟨atom, atPosition, member, isMatch⟩

theorem shaped_of_same {version : Version} {atoms : List Atom} {auxiliary : Nat}
    (same : SameTables version atoms start store) (shaped : Shaped version auxiliary atoms start) :
    Shaped version auxiliary atoms store := by
  intro position atom atPosition row member
  rw [same position atom atPosition] at member
  exact shaped position atom atPosition row member

/-- Direct arguments of atoms have the same code in the frame of the clause. -/
theorem scannedCode_clauseFrame {version : Version} (direct : ∀ atom ∈ clause.positiveAtoms, ∀ arg ∈ atom.args,
    arg.isDirect = true) (operation : Op) :
    scannedCode ordinal version (clauseFrame clause) operation =
      clause.positiveAtoms.zipIdx.foldrM
        (fun entry operation =>
          scanCode ordinal version (atomSites clause.positiveAtoms) entry.1 entry.2 operation) operation := by
  refine foldrM_congr (fun entry isEntry => funext fun operation => ?_) operation
  have atPosition : clause.positiveAtoms[entry.2]? = some entry.1 := List.mem_zipIdx_iff_getElem?.1 isEntry
  rw [scanCode, scanCode]
  refine congrArg (Option.bind · _) (filterMapM_congr fun argument isArgument => ?_)
  have isArg := List.mem_of_getElem? (List.mem_zipIdx_iff_getElem?.1 isArgument)
  obtain ⟨arg, column⟩ := argument
  rcases Argument.isDirect_cases (direct _ (List.mem_of_getElem? atPosition) arg isArg) with
    ⟨name, rfl⟩ | rfl | ⟨value, rfl⟩
  · obtain ⟨site, defined, _⟩ := definition_of_argument atPosition isArg
    simp only [matchBodyCode, isFree, valueCode, defined, definition?_clauseFrame_of_atoms defined]
  · rfl
  · rfl

/-- The atoms read the same tables while the query runs. -/
theorem Concluding.sameTables (elsewhere : ReadsElsewhere clause) (concluding : Concluding clause start store) :
    SameTables .complete clause.positiveAtoms start store := by
  intro position atom atPosition
  have member := Clause.mem_positiveAtoms.1 (List.mem_of_getElem? atPosition)
  exact concluding.others _ (elsewhere _ (Clause.body_subset_evaluated clause member) atom rfl)

theorem Runs.of_leaves {code : Exec Flow} (bound : Bound state.bindings choice)
    (leaves : Leaves code state choice store) : Runs code choice.length state (none, store) := by
  obtain ⟨bindings, stillBound, returns⟩ := leaves
  refine ⟨bindings, returns, fun tuple low => ?_⟩
  have isRow := List.getElem?_eq_getElem low
  rw [stillBound tuple _ isRow, bound tuple _ isRow]

section Query

variable (folding : clause.Folding plan.program) (strategy : plan.strategy = .seminaive)
  (elsewhere : ReadsElsewhere clause) (shaped : Shaped .complete 0 clause.positiveAtoms start)
  (fitting : ∀ aggregate ∈ clauseAggregates clause, Fitting aggregate start)

include folding strategy elsewhere shaped fitting

theorem inner_conclude {level : Expr} {inner constrained operation : Op}
    (isInner : headCode ordinal plan clause id (clauseFrame clause).sites level false = some inner)
    (isConstrained : constrainedCode ordinal plan (clauseFrame clause).sites clause.body inner = some constrained)
    (isAggregated : aggregatedCode ordinal plan (clauseFrame clause) constrained = some operation) :
    Inner args ordinal .complete clause.positiveAtoms start (Concluding clause start) operation
      fun choice store => (none, conclude ordinal clause choice store) where
  tables := fun store concluding => concluding.sameTables elsewhere
  keeps := fun choice store concluding => concluding.conclude choice
  returns := by
    intro choice state length selected bound concluding
    have same := concluding.sameTables elsewhere
    refine Runs.of_leaves bound (leaves_choice folding length (shaped_of_same same shaped)
      (selected_of_same same selected) strategy (fun aggregate member relation terms inBody => ?_) isInner isConstrained
      isAggregated bound)
    rw [concluding.others _ (elsewhere _ (Clause.mem_evaluated member inBody) ⟨relation, terms⟩ rfl)]
    exact fitting aggregate member relation terms inBody

/-- The query of a clause with aggregates adds the instances of the clause, and nothing else. -/
theorem returns_concluded {statement : Stmt} (lowerable : Clause.Lowerable plan.program clause)
    (headShaped : HeadShaped 0 clause start)
    (code : clauseCode ordinal plan clause id .complete = some statement) :
    ∃ final, Concluding clause start final ∧
      (∀ row, row ∈ final.rows clause.head.relation.text ↔
        row ∈ start.rows clause.head.relation.text ∨ row ∈ clause.instances ordinal (storedRows start)) ∧
      ∀ rounds state, state.store = start → ∃ bindings,
        Returns (runStmt rounds args statement) state .proceed
          { state with store := final, bindings := bindings } := by
  obtain ⟨_, query, isQuery, rfl⟩ := clauseCode_eq_some code
  rw [clauseQuery, folding.rule, if_neg Bool.false_ne_true] at isQuery
  obtain ⟨frame, inner, constrained, aggregated, operation, isFrame, isInner, isConstrained, isAggregated, isScanned,
    rfl⟩ := ruleCode_eq_some isQuery
  obtain ⟨rfl, _⟩ := frameOf_eq_some isFrame
  rw [scannedCode_clauseFrame folding.direct] at isScanned
  have visits : Visits (runOp args operation) [] 0 (Concluding clause start) _ _ :=
    visits_scans (inner_conclude folding strategy elsewhere shaped fitting isInner isConstrained isAggregated)
      folding.direct shaped.wide clause.positiveAtoms [] [] operation rfl rfl (fun _ _ found => by simp at found)
      isScanned
  obtain ⟨visited, isVisited, runs⟩ := visits
  have fresh : Concluding clause start start := ⟨Extends.refl _ _, headShaped⟩
  have folded : Concluding clause start
      (visited.foldl (fun store choice => conclude ordinal clause choice store) start) ∧ _ := fresh.foldl elsewhere
  obtain ⟨concluding, means⟩ := folded
  refine ⟨_, concluding, fun row => ?_, fun rounds state isStart => ?_⟩
  · rw [means, mem_instances_iff folding lowerable]
    refine or_congr_right (exists_congr fun choice => ?_)
    rw [isVisited]
    simp [Chosen, and_assoc]
  · obtain ⟨bindings, ran, _⟩ := runs state (fun _ _ found => by simp at found) (isStart ▸ fresh)
    rw [visitAll_none, isStart] at ran
    refine ⟨bindings, ?_⟩
    rw [withText]
    split
    · exact ran
    · exact ran

end Query

end DatalogRam.Lowering
