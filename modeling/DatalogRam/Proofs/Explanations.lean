import DatalogRam.Proofs.Lowering.Total
import DatalogRam.Proofs.Provenance.Levels
import DatalogRam.Proofs.Provenance.Phases
import DatalogRam.Proofs.Provenance.Subroutines
import DatalogRam.Proofs.Strategies

/-!
# Every stored row can be explained

A run for provenance from the empty store ends with rows that say how they came about. The row of a fact has number
and level zero. The row of a rule has the number of the rule, and its level is just above those of stored rows that
derive it. Asked for the head of such a row and its level, the subroutine of the rule answers with stored rows that
derive the head below the level.
-/

namespace DatalogRam

open Analysis Lowering Machine Ram

/-- Programs whose derivations are known to be explained. -/
structure Program.Explainable (program : Program) : Prop extends program.Recordable where
  flat : ∀ clause ∈ program.clauses, clause.Flat
  negated : ∀ clause ∈ program.clauses, ∀ atom ∈ clause.negatedAtoms, ∀ arg ∈ atom.args, arg.isFlat = true
  bound : ∀ clause ∈ program.clauses, clause.Bound

/-- Stored rows, one for each positive atom, that make an instance of a clause hold in the store. -/
structure Instantiates (ordinal : String → Int64) (program : Program) (store : Store) (clause : Clause) (head : Row)
    (valuation : Valuation) (rows : List Row) : Prop where
  length : rows.length = clause.positiveAtoms.length
  stored : ∀ (position : Nat) (atom : Atom) (row : Row), clause.positiveAtoms[position]? = some atom →
    rows[position]? = some row →
      row ∈ store.rows atom.relation.text ∧ Argument.Match ordinal valuation atom.args (row.take atom.arity)
  holds : ∀ literal ∈ clause.body,
    literal.Holds ordinal valuation (contentsOf program 2 store) (contentsOf program 2 store)
  head : clause.headRow ordinal valuation = head

variable {program : Program} {plan : Plan} {compiled : Ram.Program} {debugInfo : Bool} {final : State}
variable {ordinal : String → Int64} {store : Store} {clause : Clause} {id limit : Nat} {head : Row}
variable {valuation : Valuation} {rows : List Row}

/-- Stored rows of a body atom have the columns of the atom and the bookkeeping. -/
theorem length_of_positive (regular : plan.program.Regular) (isClause : clause ∈ plan.program.clauses)
    (explained : Explained ordinal plan limit store) {atom : Atom} (member : atom ∈ clause.positiveAtoms) {row : Row}
    (inTable : row ∈ store.rows atom.relation.text) : row.length = atom.arity + plan.auxiliary := by
  obtain ⟨isDeclared, arity⟩ := regular.declared clause isClause atom (Clause.positive_mem_atoms member)
  rw [arity]
  exact (explained.justified .full _ isDeclared row inTable).length regular

/-- Rows that fire make an instance of the clause hold. -/
theorem instantiates_of_fires (regular : plan.program.Regular) (isProvenance : plan.auxiliary = 2)
    (isClause : clause ∈ plan.program.clauses) (explained : Explained ordinal plan limit store)
    (fires : Fires ordinal plan clause .complete store rows) :
    Instantiates ordinal plan.program store clause (headOf ordinal clause rows)
      (valuationOf clause.positiveAtoms rows) rows := by
  have declared := regular.declared clause isClause
  have contents {atom : Atom} (isAtom : atom ∈ clause.atoms) :
      content store atom.relation.text atom.arity plan.auxiliary =
        contentsOf plan.program 2 store atom.relation := by
    obtain ⟨isDeclared, arity⟩ := declared atom isAtom
    rw [arity, isProvenance]
    exact (Set.ext fun row => and_iff_right isDeclared).symm
  have stored (position : Nat) (atom : Atom) (row : Row) (atPosition : clause.positiveAtoms[position]? = some atom)
      (isRow : rows[position]? = some row) :
      row ∈ store.rows atom.relation.text ∧
        Argument.Match ordinal (valuationOf clause.positiveAtoms rows) atom.args (row.take atom.arity) := by
    obtain ⟨other, isOther, member, isMatch⟩ := fires.selected position row isRow
    rw [atPosition, Option.some.injEq] at isOther
    subst isOther
    exact ⟨member, isMatch⟩
  refine ⟨fires.length, stored, fun literal member => ?_, rfl⟩
  have passes := fires.passes literal member
  cases literal with
  | positive relation args =>
      have isPositive : (⟨relation, args⟩ : Atom) ∈ clause.positiveAtoms := Clause.mem_positiveAtoms.2 member
      obtain ⟨position, atPosition⟩ := List.mem_iff_getElem?.1 isPositive
      obtain ⟨inside, _⟩ := List.getElem?_eq_some_iff.1 atPosition
      have isRow := List.getElem?_eq_getElem (fires.length ▸ inside)
      obtain ⟨inTable, isMatch⟩ := stored position _ _ atPosition isRow
      refine ⟨_, ?_, isMatch⟩
      rw [← contents (Clause.positive_mem_atoms isPositive)]
      exact ⟨_, inTable, length_of_positive regular isClause explained isPositive inTable, rfl⟩
  | negative relation args =>
      have isNegated : (⟨relation, args⟩ : Atom) ∈ clause.negatedAtoms := Clause.mem_negatedAtoms.2 member
      rw [Literal.Holds, ← contents (Clause.negated_mem_atoms isNegated)]
      exact passes
  | comparison op left right => exact passes
  | truth value => exact passes

/-- A fact of the relation has the row for its head. -/
def HasFact (ordinal : String → Int64) (program : Program) (name : Name) (head : Row) : Prop :=
  ∃ fact ∈ program.clauses, fact.isFact = true ∧ fact.head.relation = name ∧
    ∀ valuation, fact.headRow ordinal valuation = head

/-- Called with the values of the head's variables, whatever the other slots hold, and a level, the subroutine of a
rule answers with stored rows that derive the head below the level. -/
def AnswersBelow (compiled : Ram.Program) (program : Program) (final : State) (clause : Clause) (number : Nat)
    (head : Row) (valuation : Valuation) (level : Int64) : Prop :=
  ∀ args : Row, args.length = (Slots.ofClause clause).size →
    (∀ name, .var name ∈ clause.head.args → argumentOf (Slots.ofClause clause) args name = valuation name) →
      ∀ rounds, ∃ other chosen bindings,
        Instantiates compiled.symbols.ordinal program final.store clause head other chosen ∧
          (∀ row ∈ chosen, rowLevel row < level) ∧
          Returns (callSubroutine compiled rounds (explanationLabel clause number ++ "_subproof") (args ++ [level]))
            final (some (answerOf compiled.symbols.ordinal clause chosen)) { final with bindings := bindings }

/-- A row of a relation is that of a fact or of a rule, with its number and its level. Stored rows just below its
level derive the row of a rule and, unless the relation describes rules, the subroutine of the rule answers for it. -/
def RowExplained (compiled : Ram.Program) (program : Program) (final : State) (relation : Relation) (row : Row) :
    Prop :=
  ∃ head number level, row = head ++ [Int64.ofNat number, level] ∧ head.length = relation.arity ∧
    number ≤ program.clauses.length ∧
    (number = 0 → level = 0 ∧ HasFact compiled.symbols.ordinal program relation.name head) ∧
    (0 < number → ∃ clause id valuation rows, program.clauses[id]? = some clause ∧ clause.isFact = false ∧
      clause.head.relation = relation.name ∧ ruleNumber program (clause, id) = number ∧
      Instantiates compiled.symbols.ordinal program final.store clause head valuation rows ∧
      JustAbove level (rows.map rowLevel) ∧
      (isInfoName relation.name = false →
        AnswersBelow compiled program final clause number head valuation level))

/-- A program has no more rules than clauses. -/
theorem ruleNumber_le {entry : Clause × Nat} (atId : program.clauses[entry.2]? = some entry.1) :
    ruleNumber program entry ≤ program.clauses.length := by
  let earlier := (program.clausesOf entry.1.head.relation).filter fun other =>
    !other.1.isFact && decide (other.2 < entry.2)
  have sub : earlier.Sublist program.numberedClauses :=
    List.filter_sublist.trans List.filter_sublist
  have outside : entry ∉ earlier := by
    intro member
    have before := (List.mem_filter.1 member).2
    simp at before
  have fewer : earlier.length ≠ program.numberedClauses.length := by
    intro same
    rw [sub.eq_of_length same] at outside
    exact outside (List.mem_zipIdx_iff_getElem?.2 atId)
  have length : program.numberedClauses.length = program.clauses.length := List.length_zipIdx
  have atMost := sub.length_le
  rw [ruleNumber]
  change earlier.length + 1 ≤ _
  omega

theorem Clause.positiveAtoms_of_isFact (isFact : clause.isFact = true) : clause.positiveAtoms = [] := by
  rw [Clause.positiveAtoms, List.isEmpty_iff.1 isFact]
  rfl

/-- A fact without variables has one row for its head. -/
theorem hasFact_of_isFact (isClause : clause ∈ program.clauses) (isFact : clause.isFact = true)
    (bound : clause.Bound) (valuation : Valuation) :
    HasFact ordinal program clause.head.relation (clause.headRow ordinal valuation) := by
  refine ⟨clause, isClause, isFact, rfl, fun other => values_congr fun name isVariable => ?_⟩
  obtain ⟨atom, member, _⟩ := bound name (List.mem_append_right _ isVariable)
  rw [Clause.positiveAtoms_of_isFact isFact] at member
  cases member

section Levels

variable (regular : plan.program.Regular) (isProvenance : plan.auxiliary = 2)
  (isClause : clause ∈ plan.program.clauses) (explained : Explained ordinal plan limit store)
  (instantiates : Instantiates ordinal plan.program store clause head valuation rows)

include regular isProvenance isClause explained instantiates

/-- The levels in the body of a clause are those of the rows that make an instance of it hold. -/
theorem bodyLevelsOf_of_fires : bodyLevelsOf clause.positiveAtoms rows = rows.map rowLevel := by
  refine bodyLevelsOf_eq instantiates.length fun position atom row atPosition isRow => ?_
  have inTable := (instantiates.stored position atom row atPosition isRow).1
  rw [length_of_positive regular isClause explained (List.mem_of_getElem? atPosition) inTable, isProvenance]

/-- The level of a derived row is just above those of the rows that derive it, unless one has the last word. -/
theorem levelOf_justAbove (low : ∀ relation ∈ plan.program.relations, ∀ row ∈ store.rows relation.name.text,
    rowLevel row ≠ Int64.maxValue) : JustAbove (levelOf clause.positiveAtoms rows) (rows.map rowLevel) := by
  rw [← bodyLevelsOf_of_fires regular isProvenance isClause explained instantiates]
  refine justAbove_levelOf fun level inBody => ?_
  rw [bodyLevelsOf_of_fires regular isProvenance isClause explained instantiates, List.mem_map] at inBody
  obtain ⟨row, isRow, rfl⟩ := inBody
  obtain ⟨position, atPosition⟩ := List.mem_iff_getElem?.1 isRow
  obtain ⟨inside, _⟩ := List.getElem?_eq_some_iff.1 atPosition
  have atAtom := List.getElem?_eq_getElem (instantiates.length ▸ inside)
  obtain ⟨isDeclared, _⟩ :=
    regular.declared clause isClause _ (Clause.positive_mem_atoms (List.mem_of_getElem? atAtom))
  obtain ⟨relation, isRelation, isName⟩ := List.mem_map.1 isDeclared
  exact low relation isRelation row (isName ▸ (instantiates.stored position _ row atAtom atPosition).1)

end Levels

/-- If rows derive a head, the subroutine of the rule answers for every level above theirs. -/
theorem answersBelow_of_fires (explainable : program.Explainable)
    (planned : Plan.of program .provenance debugInfo = .ok plan)
    (lowered : (lowerProgram program .provenance debugInfo).result = .ok compiled)
    (isRule : (clause, id) ∈ explainedRules program)
    (explained : Explained compiled.symbols.ordinal plan limit final.store)
    (fires : Fires compiled.symbols.ordinal plan clause .complete final.store rows) {level : Int64}
    (low : ∀ lower ∈ bodyLevelsOf clause.positiveAtoms rows, lower < level) :
    AnswersBelow compiled program final clause (ruleNumber program (clause, id))
      (headOf compiled.symbols.ordinal clause rows) (valuationOf clause.positiveAtoms rows) level := by
  intro args count wanted rounds
  have isClause : clause ∈ program.clauses := List.mem_of_getElem? (mem_explainedRules.1 isRule).1
  have flat := explainable.flat clause isClause
  obtain ⟨subroutine, found, parameters, code⟩ := subroutine_of_lowered explainable.distinct
    (List.nodup_append.1 explainable.tables).2.1 explainable.declared planned lowered isRule
  obtain ⟨_, rfl, strategy⟩ := scheduled_of planned
  have regular := explainable.toRegular
  have isProvenance := auxiliary_of_provenance strategy
  have shaped : Shaped .complete plan.auxiliary clause.positiveAtoms final.store :=
    fun position atom atPosition row => length_of_positive regular isClause explained (List.mem_of_getElem? atPosition)
  have isWanted : Wanted compiled.symbols.ordinal clause (Slots.ofClause clause) (args ++ [level]) rows := by
    refine ⟨fun arg isArg => ?_, ?_⟩
    · have isFlat := flat.head arg isArg
      cases arg with
      | var name =>
          rw [Argument.value, Argument.value, argumentOf_append _ _ _ _ (Nat.le_of_eq count.symm)]
          exact (wanted name isArg).symm
      | constant value => rfl
      | _ => cases isFlat
    · rw [← count, List.getElem?_concat_length]
      exact low
  have enough : (args ++ [level]).length = (Slots.ofClause clause).size + 1 := by
    rw [List.length_append, count, List.length_singleton]
  obtain ⟨chosen, alsoFires, alsoWanted, answers⟩ := returns_explanation (regular.simple clause isClause)
    (slotted_of_flat flat.head code)
    (fun atom member arg isArg => Argument.isTerm_of_isFlat (explainable.negated clause isClause atom member arg isArg))
    strategy shaped enough code fires isWanted
  obtain ⟨bindings, returns⟩ := returns_callSubroutine found (enough.trans parameters.symm) answers rounds rfl
  have instantiates := instantiates_of_fires regular isProvenance isClause explained alsoFires
  rw [isWanted.headOf_eq alsoWanted] at instantiates
  refine ⟨_, chosen, bindings, instantiates, fun row member => ?_, returns⟩
  have below := alsoWanted.low
  rw [bodyLevelsOf_of_fires regular isProvenance isClause explained instantiates, ← count,
    List.getElem?_concat_length] at below
  exact below _ (List.mem_map_of_mem member)

/-- After a run for provenance from the empty store, as long as no level is the last word, every row of a declared
relation is explained. -/
theorem rows_explained (explainable : program.Explainable)
    (lowered : (lowerProgram program .provenance debugInfo).result = .ok compiled)
    (finishes : Finishes compiled (.start compiled .empty) final)
    (low : ∀ relation ∈ program.relations, ∀ row ∈ final.store.rows relation.name.text,
      rowLevel row ≠ Int64.maxValue) :
    ∀ relation ∈ program.relations, ∀ row ∈ final.store.rows relation.name.text,
      RowExplained compiled program final relation row := by
  intro relation isRelation row member
  obtain ⟨plan, _, _, planned, _⟩ := codes_of_lowered lowered
  have explained := explained_of_finishes explainable.toRegular explainable.apart planned lowered finishes
  obtain ⟨_, same, strategy⟩ := scheduled_of planned
  subst same
  have regular := explainable.toRegular
  have isProvenance : plan.auxiliary = 2 := by
    rw [Plan.auxiliary, strategy]
    rfl
  have isDeclared : relation.name ∈ plan.program.relationNames := List.mem_map_of_mem isRelation
  obtain ⟨clause, id, rows, atId, isHead, fires, isDerived⟩ := explained.justified .full _ isDeclared row member
  have isClause := List.mem_of_getElem? atId
  have instantiates := instantiates_of_fires regular isProvenance isClause explained fires
  have headLength : (headOf compiled.symbols.ordinal clause rows).length = relation.arity := by
    have arity := (regular.declared clause isClause _ clause.head_mem_atoms).2
    rw [isHead, arityOf_of_mem regular.once isRelation] at arity
    rw [headOf, Clause.headRow, Argument.values_eq_map, List.length_map]
    exact arity
  have justAbove := levelOf_justAbove regular isProvenance isClause explained instantiates low
  rw [derivedRow, bookkept, strategy] at isDerived
  cases isFact : clause.isFact with
  | true =>
      have number : plan.clauseNumber clause id = .ok 0 := by
        obtain ⟨found, isFound⟩ := Program.exists_relation (isHead ▸ isDeclared)
        rw [Plan.clauseNumber, Program.declares, isFound, isFact]
        rfl
      have noAtoms : clause.positiveAtoms = [] := Clause.positiveAtoms_of_isFact isFact
      refine ⟨_, 0, _, isDerived.trans (by rw [number]; rfl), headLength, Nat.zero_le _, fun _ => ⟨?_, ?_⟩,
        fun some => absurd some (Nat.lt_irrefl 0)⟩
      · rw [noAtoms]
        rfl
      · exact isHead ▸ hasFact_of_isFact isClause isFact (explainable.bound clause isClause) _
  | false =>
      have number : plan.clauseNumber clause id = .ok (ruleNumber plan.program (clause, id)) :=
        @clauseNumber_of_rule plan (clause, id) (isHead ▸ isDeclared) isFact
      refine ⟨_, ruleNumber plan.program (clause, id), _, isDerived.trans (by rw [number]; rfl), headLength,
        ruleNumber_le atId, fun none => absurd none (Nat.succ_ne_zero _), fun _ => ?_⟩
      refine ⟨clause, id, _, rows, atId, isFact, isHead, rfl, instantiates, justAbove, fun notInfo => ?_⟩
      have levels := bodyLevelsOf_of_fires regular isProvenance isClause explained instantiates
      exact answersBelow_of_fires explainable planned lowered (mem_explainedRules.2 ⟨atId, isFact, isHead ▸ notInfo⟩)
        explained fires (levels ▸ justAbove.above)

/-- The paths over two edges that are facts. -/
def twoEdges : Program :=
  { reachability with
    clauses :=
      ⟨⟨⟨["edge"]⟩, [.constant (.number 1), .constant (.number 2)]⟩, []⟩ ::
        ⟨⟨⟨["edge"]⟩, [.constant (.number 2), .constant (.number 3)]⟩, []⟩ :: reachability.clauses }

theorem explainable_twoEdges : twoEdges.Explainable := by
  have noNegation : ∀ clause ∈ twoEdges.clauses, ∀ atom, atom ∉ clause.negatedAtoms := by
    have none : ∀ clause ∈ twoEdges.clauses, clause.negatedAtoms = [] := by decide +kernel
    intro clause member atom
    rw [none clause member]
    exact List.not_mem_nil
  have flat : ∀ clause ∈ twoEdges.clauses, clause.Flat := by
    intro clause member
    have each : ∀ clause ∈ twoEdges.clauses, (∀ arg ∈ clause.head.args, arg.isFlat = true) ∧
        (∀ atom ∈ clause.positiveAtoms, ∀ arg ∈ atom.args, arg.isDirect = true) ∧
        clause.body.all fun literal => literal.positiveAtom?.isSome := by decide +kernel
    obtain ⟨head, positive, onlyPositive⟩ := each clause member
    refine ⟨head, positive, fun atom negated => absurd negated (noNegation clause member atom),
      fun op left right compared => ?_⟩
    have isPositive := List.all_eq_true.1 onlyPositive _ compared
    cases isPositive
  refine ⟨⟨⟨by decide, fun clause member => (flat clause member).simple, ?_,
    fun clause member atom negated => absurd negated (noNegation clause member atom)⟩, by decide +kernel⟩,
    flat, fun clause member atom negated => absurd negated (noNegation clause member atom), ?_⟩
  · unfold Lowering.Clause.Declared
    decide +kernel
  · unfold Clause.Bound
    decide +kernel

/-- The paths over two edges, lowered for provenance. -/
def recordedTwoEdges : Ram.Program :=
  ((lowerProgram twoEdges .provenance true).result.toOption).getD ⟨.empty, [], ⟨0, .sequence []⟩, [], .empty⟩

theorem lowered_twoEdges : (lowerProgram twoEdges .provenance true).result = .ok recordedTwoEdges := by
  obtain ⟨compiled, lowered⟩ := exists_result (show (lowerProgram twoEdges .provenance true).result.isOk by
    decide +kernel)
  rw [recordedTwoEdges, lowered]
  rfl

/-- A run of three rounds from the empty store. -/
def runTwoEdges : Except Halt Unit × State :=
  (runMain recordedTwoEdges 3).run.run (.start recordedTwoEdges .empty)

theorem runTwoEdges_rows :
    runTwoEdges.1.isOk = true ∧
      (runTwoEdges.2.store.rows "edge").toList = [[1, 2, 0, 0], [2, 3, 0, 0]] ∧
      (runTwoEdges.2.store.rows "path").toList = [[1, 2, 1, 1], [1, 3, 2, 2], [2, 3, 1, 1]] := by
  decide +kernel

theorem finishes_twoEdges : Finishes recordedTwoEdges (.start recordedTwoEdges .empty) runTwoEdges.2 :=
  .of_isOk runTwoEdges_rows.1

/-- The path over both edges is explained. -/
theorem twoEdges_explained :
    twoEdges.Explainable ∧ (lowerProgram twoEdges .provenance true).result = .ok recordedTwoEdges ∧
      Finishes recordedTwoEdges (.start recordedTwoEdges .empty) runTwoEdges.2 ∧
      [1, 3, 2, 2] ∈ runTwoEdges.2.store.rows "path" ∧
      ∀ relation ∈ twoEdges.relations, ∀ row ∈ runTwoEdges.2.store.rows relation.name.text,
        RowExplained recordedTwoEdges twoEdges runTwoEdges.2 relation row := by
  obtain ⟨_, edge, path⟩ := runTwoEdges_rows
  have names : ∀ relation ∈ twoEdges.relations, relation.name.text = "edge" ∨ relation.name.text = "path" := by
    decide
  refine ⟨explainable_twoEdges, lowered_twoEdges, finishes_twoEdges, ?_,
    rows_explained explainable_twoEdges lowered_twoEdges finishes_twoEdges fun relation isRelation row member => ?_⟩
  · rw [Rows.mem_def, path]
    decide
  · rw [Rows.mem_def] at member
    rcases names relation isRelation with isName | isName <;> rw [isName] at member
    · rw [edge] at member
      revert row
      decide
    · rw [path] at member
      revert row
      decide

end DatalogRam
