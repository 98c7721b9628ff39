import DatalogRam.Proofs.Provenance.Guards
import DatalogRam.Proofs.Provenance.Runs

/-!
# Which tuples are stored twice

The guards of a loop look into the complete relation while the new rows are kept apart, so within one round two
recursive rules, or one rule with rows of different levels, may find the same tuple. This is the only way to store a
tuple twice: the rows of one round differ from all that were there before in their logical columns.
-/

namespace DatalogRam

open Analysis Lowering Machine Ram

/-- Programs whose tables have different names, whose clauses have the declared arities and whose heads do not
count. -/
structure Program.Guardable (program : Program) : Prop where
  tables : (tableNames program ++ infoTables program).Nodup
  arities : ∀ clause ∈ program.clauses, clause.head.relation ∈ program.relationNames →
    clause.head.arity = arityOf program clause.head.relation
  uncounted : ∀ clause ∈ program.clauses, clause.head.relation ∈ program.relationNames →
    Argument.anyCounts clause.head.args = false

theorem Program.Guardable.distinct {program : Program} (guardable : program.Guardable) : (tableNames program).Nodup :=
  (List.nodup_append.1 guardable.tables).1

theorem Program.Guardable.apart {program : Program} (guardable : program.Guardable) :
    ∀ table ∈ infoTables program, table ∉ tableNames program :=
  fun _ member inTables => (List.nodup_append.1 guardable.tables).2.2 _ inTables _ member rfl

/-- Rows of a relation that differ in their bookkeeping columns at most. -/
def SameTuple (program : Program) (name : Name) (first second : Row) : Prop :=
  first.take (arityOf program name) = second.take (arityOf program name)

/-- The row has the number of a recursive rule of the relation. -/
def FromRecursion (program : Program) (name : Name) (row : Row) : Prop :=
  ∃ clause id, program.clauses[id]? = some clause ∧ clause.head.relation = name ∧
    isRecursive program clause = true ∧
    row[arityOf program name]? = some (Int64.ofNat (ruleNumber program (clause, id)))

/-- Rows for the same tuple are equal, or recursive rules found both of them. -/
def RepeatsRecursionOnly (program : Program) (name : Name) (rows : Rows) : Prop :=
  ∀ first ∈ rows, ∀ second ∈ rows, SameTuple program name first second →
    first = second ∨ FromRecursion program name first ∧ FromRecursion program name second

namespace Lowering

/-- What holds of the rows of a relation, and of the new rows of the current round. -/
structure Derived (program : Program) (name : Name) (full fresh : Rows) : Prop where
  fullLength : ∀ row ∈ full, row.length = arityOf program name + 2
  freshLength : ∀ row ∈ fresh, row.length = arityOf program name + 2
  repeats : RepeatsRecursionOnly program name full
  recursive : ∀ row ∈ fresh, FromRecursion program name row
  new : ∀ row ∈ fresh, ∀ other ∈ full, ¬SameTuple program name other row

variable {program : Program} {name : Name} {full fresh : Rows} {row : Row} {number : Int64}

theorem Derived.empty (program : Program) (name : Name) : Derived program name .empty .empty where
  fullLength row member := absurd member (Rows.not_mem_empty row)
  freshLength row member := absurd member (Rows.not_mem_empty row)
  repeats row member := absurd member (Rows.not_mem_empty row)
  recursive row member := absurd member (Rows.not_mem_empty row)
  new row member := absurd member (Rows.not_mem_empty row)

theorem Derived.not_sameTuple (derived : Derived program name full fresh)
    (unseen : Unseen full (arityOf program name) number row) {other : Row} (member : other ∈ full) :
    ¬SameTuple program name other row :=
  unseen.unseen other member (derived.fullLength other member)

/-- As long as there are no new rows, a relation may take an unseen one. -/
theorem Derived.insert (derived : Derived program name full fresh) (noneNew : ∀ row, row ∉ fresh)
    (unseen : Unseen full (arityOf program name) number row) : Derived program name (full.insert row) fresh where
  fullLength other member := by
    rcases Rows.mem_insert.1 member with rfl | before
    · exact unseen.length
    · exact derived.fullLength other before
  freshLength := derived.freshLength
  repeats first isFirst second isSecond same := by
    rcases Rows.mem_insert.1 isFirst with rfl | before
    · rcases Rows.mem_insert.1 isSecond with rfl | alsoBefore
      · exact .inl rfl
      · exact absurd same.symm (derived.not_sameTuple unseen alsoBefore)
    · rcases Rows.mem_insert.1 isSecond with rfl | alsoBefore
      · exact absurd same (derived.not_sameTuple unseen before)
      · exact derived.repeats first before second alsoBefore same
  recursive := derived.recursive
  new other member := absurd member (noneNew other)

/-- A recursive rule finds a new row. -/
theorem Derived.find (derived : Derived program name full fresh) (recursive : FromRecursion program name row)
    (unseen : Unseen full (arityOf program name) number row) : Derived program name full (fresh.insert row) where
  fullLength := derived.fullLength
  freshLength other member := by
    rcases Rows.mem_insert.1 member with rfl | before
    · exact unseen.length
    · exact derived.freshLength other before
  repeats := derived.repeats
  recursive other member := by
    rcases Rows.mem_insert.1 member with rfl | before
    · exact recursive
    · exact derived.recursive other before
  new other member old inFull := by
    rcases Rows.mem_insert.1 member with rfl | before
    · exact derived.not_sameTuple unseen inFull
    · exact derived.new other before old inFull

/-- The new rows come to the relation. -/
theorem Derived.union (derived : Derived program name full fresh) :
    Derived program name (full.union fresh) .empty where
  fullLength row member := (Rows.mem_union.1 member).elim (derived.fullLength row) (derived.freshLength row)
  freshLength row member := absurd member (Rows.not_mem_empty row)
  repeats first isFirst second isSecond same := by
    rcases Rows.mem_union.1 isFirst with before | new
    · rcases Rows.mem_union.1 isSecond with alsoBefore | alsoNew
      · exact derived.repeats first before second alsoBefore same
      · exact absurd same (derived.new second alsoNew first before)
    · rcases Rows.mem_union.1 isSecond with before | alsoNew
      · exact absurd same.symm (derived.new first new second before)
      · exact .inr ⟨derived.recursive first new, derived.recursive second alsoNew⟩
  recursive row member := absurd member (Rows.not_mem_empty row)
  new row member := absurd member (Rows.not_mem_empty row)

theorem Derived.forget (derived : Derived program name full fresh) : Derived program name full .empty where
  fullLength := derived.fullLength
  freshLength row member := absurd member (Rows.not_mem_empty row)
  repeats := derived.repeats
  recursive row member := absurd member (Rows.not_mem_empty row)
  new row member := absurd member (Rows.not_mem_empty row)

/-- What holds of a store while the relations `busy` may have new rows. -/
structure Tidy (program : Program) (busy : List Name) (store : Store) : Prop where
  derived : ∀ name ∈ program.relationNames, Derived program name (store.rows name.text) (store.rows (freshName name))
  quiet : ∀ name ∈ program.relationNames, name ∉ busy → ∀ row, row ∉ store.rows (freshName name)

variable {busy later : List Name} {start final : Store}

theorem Tidy.empty (program : Program) (busy : List Name) : Tidy program busy .empty where
  derived name _ := Derived.empty program name
  quiet _ _ _ row := Rows.not_mem_empty row

theorem Tidy.congr (tidy : Tidy program busy start)
    (same : ∀ part, part ≠ .delta → ∀ name ∈ program.relationNames,
      final.rows (Part.table part name) = start.rows (Part.table part name)) :
    Tidy program busy final where
  derived name declared := by
    have full : final.rows name.text = start.rows name.text := same .full (by decide) name declared
    have fresh : final.rows (freshName name) = start.rows (freshName name) := same .fresh (by decide) name declared
    rw [full, fresh]
    exact tidy.derived name declared
  quiet name declared outside row := by
    have fresh : final.rows (freshName name) = start.rows (freshName name) := same .fresh (by decide) name declared
    rw [fresh]
    exact tidy.quiet name declared outside row

/-- Only the tables of one relation change. -/
theorem Tidy.update (distinct : (tableNames program).Nodup) (tidy : Tidy program busy start)
    (declared : name ∈ program.relationNames)
    (others : ∀ table, table ∉ tablesOf name → final.rows table = start.rows table)
    (derived : Derived program name (final.rows name.text) (final.rows (freshName name)))
    (still : ∀ other ∈ busy, other = name ∨ other ∈ later)
    (quiet : name ∉ later → ∀ row, row ∉ final.rows (freshName name)) : Tidy program later final := by
  have apart (part : Part) {other : Name} (alsoDeclared : other ∈ program.relationNames) (different : other ≠ name) :
      final.rows (part.table other) = start.rows (part.table other) :=
    others _ (table_not_mem_tablesOf distinct declared alsoDeclared different part)
  refine ⟨fun other alsoDeclared => ?_, fun other alsoDeclared outside => ?_⟩
  · by_cases same : other = name
    · exact same ▸ derived
    · have full : final.rows other.text = start.rows other.text := apart .full alsoDeclared same
      have fresh : final.rows (freshName other) = start.rows (freshName other) := apart .fresh alsoDeclared same
      rw [full, fresh]
      exact tidy.derived other alsoDeclared
  · by_cases same : other = name
    · subst same
      exact quiet outside
    · have fresh : final.rows (freshName other) = start.rows (freshName other) := apart .fresh alsoDeclared same
      rw [fresh]
      exact tidy.quiet other alsoDeclared fun member => (still other member).elim same outside

/-! ## Queries -/

variable {ordinal : String → Int64} {plan : Plan} {args : Row} {stratum : Stratum} {position : Nat}
variable {statement : Stmt} {statements : List Stmt}

theorem Tidy.insert_full (distinct : (tableNames program).Nodup) (tidy : Tidy program busy start)
    (declared : name ∈ program.relationNames) (outside : name ∉ busy)
    (unseen : Unseen (start.rows name.text) (arityOf program name) number row) :
    Tidy program busy (start.insert name.text row) := by
  have freshFull : freshName name ≠ name.text := @tables_apart _ name distinct declared .fresh .full (by decide)
  refine tidy.update distinct declared (fun table notTable => ?_) ?_ (fun other => .inr) fun _ other => ?_
  · rw [Store.rows_insert, if_neg fun same : table = name.text => notTable (same ▸ Part.full.table_mem name)]
  · rw [Store.rows_insert, Store.rows_insert, if_pos rfl, if_neg freshFull]
    exact (tidy.derived name declared).insert (tidy.quiet name declared outside) unseen
  · rw [Store.rows_insert, if_neg freshFull]
    exact tidy.quiet name declared outside other

theorem Tidy.insert_fresh (distinct : (tableNames program).Nodup) (tidy : Tidy program busy start)
    (declared : name ∈ program.relationNames) (inside : name ∈ busy) (recursive : FromRecursion program name row)
    (unseen : Unseen (start.rows name.text) (arityOf program name) number row) :
    Tidy program busy (start.insert (freshName name) row) := by
  have fullFresh : name.text ≠ freshName name := @tables_apart _ name distinct declared .full .fresh (by decide)
  refine tidy.update distinct declared (fun table notTable => ?_) ?_ (fun other => .inr) (absurd inside)
  · rw [Store.rows_insert, if_neg fun same : table = freshName name => notTable (same ▸ Part.fresh.table_mem name)]
  · rw [Store.rows_insert, Store.rows_insert, if_neg fullFresh, if_pos rfl]
    exact (tidy.derived name declared).find recursive unseen

theorem maintains_completeQueries (guardable : plan.program.Guardable) (strategy : plan.strategy = .provenance)
    (found : (strata plan.program)[position]? = some stratum)
    (codes : (completeQueries plan stratum.relations).mapM (Query.code ordinal plan) = some statements) :
    Maintains args statements (Tidy plan.program []) (Tidy plan.program []) := by
  refine Maintains.all fun statement member => ?_
  obtain ⟨query, isQuery, code⟩ := mem_of_mapM codes member
  obtain ⟨atId, inside, _, isVersion⟩ := mem_completeQueries.1 isQuery
  have isClause := List.mem_of_getElem? atId
  have declared := ((inStratum_iff_mem found).2 inside).declared
  refine maintains_clauseCode strategy (guardable.uncounted _ isClause declared) (fun _ => isVersion)
    (fun number _ store row tidy unseen => ?_) code
  rw [guardable.arities _ isClause declared] at unseen
  rw [isVersion]
  exact tidy.insert_full guardable.distinct declared List.not_mem_nil unseen

theorem maintains_roundQueries (guardable : plan.program.Guardable) (strategy : plan.strategy = .provenance)
    (found : (strata plan.program)[position]? = some stratum)
    (codes : (roundQueries plan stratum.relations).mapM (Query.code ordinal plan) = some statements) :
    Maintains args statements (Tidy plan.program stratum.relations) (Tidy plan.program stratum.relations) := by
  refine Maintains.all fun statement member => ?_
  obtain ⟨query, isQuery, code⟩ := mem_of_mapM codes member
  obtain ⟨atId, inside, recursive, delta, isDelta, isVersion⟩ := mem_roundQueries.1 isQuery
  have isClause := List.mem_of_getElem? atId
  have declared := ((inStratum_iff_mem found).2 inside).declared
  obtain ⟨atom, atDelta, _⟩ := mem_positionsWithin.1 isDelta
  have isRule : query.clause.isFact = false := by
    cases isFact : query.clause.isFact with
    | false => rfl
    | true =>
        rw [Clause.positiveAtoms, List.isEmpty_iff.1 isFact] at atDelta
        cases atDelta
  refine maintains_clauseCode strategy (guardable.uncounted _ isClause declared) (fun isFact => ?_)
    (fun number isNumber store row tidy unseen => ?_) code
  · rw [isRule] at isFact
    cases isFact
  · rw [guardable.arities _ isClause declared] at unseen
    rw [isVersion]
    rw [@clauseNumber_of_rule plan (query.clause, query.id) declared isRule] at isNumber
    cases isNumber
    exact tidy.insert_fresh guardable.distinct declared inside ⟨_, query.id, atId, rfl, recursive, unseen.number⟩ unseen

/-! ## Phases -/

theorem Tidy.seed (distinct : (tableNames program).Nodup) (tidy : Tidy program busy start)
    (declared : name ∈ program.relationNames) : Tidy program busy (start.merge name.text (deltaName name)) := by
  refine tidy.congr fun part notDelta other alsoDeclared => ?_
  rw [Store.rows_merge, if_neg]
  exact fun same => notDelta (@table_injective _ distinct part .delta _ _ alsoDeclared declared same).1

theorem Tidy.advance (distinct : (tableNames program).Nodup) (tidy : Tidy program busy start)
    (declared : name ∈ program.relationNames) : Tidy program busy (advanced name start) := by
  obtain ⟨full, _, fresh, others⟩ := rows_advanced distinct declared start
  refine tidy.update distinct declared others ?_ (fun other => .inr) fun _ row => ?_
  · rw [full, fresh]
    exact (tidy.derived name declared).union
  · rw [fresh]
    exact Rows.not_mem_empty row

theorem Tidy.clearRounds (distinct : (tableNames program).Nodup) (tidy : Tidy program (name :: busy) start)
    (declared : name ∈ program.relationNames) : Tidy program busy (cleared name start) := by
  obtain ⟨full, _, fresh, others⟩ := rows_cleared distinct declared start
  refine tidy.update distinct declared others ?_ (fun other => List.mem_cons.1) fun _ row => ?_
  · rw [full, fresh]
    exact (tidy.derived name declared).forget
  · rw [fresh]
    exact Rows.not_mem_empty row

theorem maintains_clearings (distinct : (tableNames program).Nodup) {names : List Name}
    (declared : ∀ name ∈ names, name ∈ program.relationNames) :
    Maintains args (names.map clearRoundsCode).flatten (Tidy program names) (Tidy program []) := by
  induction names with
  | nil => exact Maintains.nil _
  | cons name rest ih =>
      have first : Maintains args (clearRoundsCode name) (Tidy program (name :: rest)) (Tidy program rest) :=
        Maintains.of_leads fun start tidy =>
          ⟨_, tidy.clearRounds distinct (declared name List.mem_cons_self), fun _ => leads_cleared name start⟩
      exact first.append (ih fun other member => declared other (List.mem_cons_of_mem _ member))

/-- The code of a stratum keeps the store tidy. -/
theorem tidy_stratum (guardable : plan.program.Guardable) (strategy : plan.strategy = .provenance)
    (found : (strata plan.program)[position]? = some stratum)
    (code : stratumCode ordinal plan stratum = some statement) :
    Maintains args [statement] (Tidy plan.program []) (Tidy plan.program []) := by
  have distinct := guardable.distinct
  have declared : ∀ name ∈ stratum.relations, name ∈ plan.program.relationNames :=
    fun name member => ((inStratum_iff_mem found).2 member).declared
  obtain ⟨once, areOnce, shape⟩ := stratumCode_eq_some code
  have first : Maintains args once (Tidy plan.program []) (Tidy plan.program []) :=
    maintains_completeQueries guardable strategy found areOnce
  split at shape
  · obtain ⟨queries, areRounds, rfl⟩ := shape
    have begins : ∀ store, Tidy plan.program [] store → Tidy plan.program stratum.relations store :=
      fun store tidy => ⟨tidy.derived, fun name isDeclared _ => tidy.quiet name isDeclared List.not_mem_nil⟩
    have seeds : Maintains args (stratum.relations.map seedCode) (Tidy plan.program stratum.relations)
        (Tidy plan.program stratum.relations) := by
      refine Maintains.all fun seed member => ?_
      obtain ⟨name, isName, rfl⟩ := List.mem_map.1 member
      exact Maintains.of_leads fun start tidy =>
        ⟨_, tidy.seed distinct (declared name isName), fun _ => (Leads.merge _ _ _).singleton⟩
    have advances : Maintains args (stratum.relations.map advanceCode).flatten (Tidy plan.program stratum.relations)
        (Tidy plan.program stratum.relations) :=
      Maintains.of_leads fun start tidy => Maintains.leads_flatten (fun name isName store tidy =>
        ⟨_, tidy.advance distinct (declared name isName), fun _ => leads_advanced name store⟩) tidy
    have loop : Maintains args [.loop (roundCode stratum.relations queries)] (Tidy plan.program stratum.relations)
        (Tidy plan.program stratum.relations) :=
      (maintains_roundQueries guardable strategy found areRounds).loop advances
    exact ((first.consequence (fun _ tidy => tidy) begins).append
      ((seeds.append loop).append (maintains_clearings distinct declared))).sequence
  · subst shape
    exact first.sequence

end Lowering

/-- After a run for provenance from the empty store, two rows of a declared relation for the same tuple are equal, or
both have the numbers of recursive rules. -/
theorem repeats_recursion_only {program : Program} {debugInfo : Bool} {compiled : Ram.Program} {final : State}
    (guardable : program.Guardable) (lowered : (lowerProgram program .provenance debugInfo).result = .ok compiled)
    (finishes : Finishes compiled (.start compiled .empty) final) :
    ∀ name ∈ program.relationNames, RepeatsRecursionOnly program name (final.store.rows name.text) := by
  intro name declared
  obtain ⟨plan, _, _, planned, _⟩ := codes_of_lowered lowered
  obtain ⟨_, rfl, strategy⟩ := scheduled_of planned
  have tidy : Tidy plan.program [] final.store := by
    refine @of_recordedRun _ _ _ _ _ (fun _ => Tidy plan.program []) planned lowered guardable.apart
      (fun position stratum evaluation found code => tidy_stratum guardable strategy found code)
      (fun _ store table row isApart tidy => ?_) (Tidy.empty _ _) finishes
    exact tidy.congr fun part _ other alsoDeclared => rows_insert_apart isApart row part alsoDeclared
  exact (tidy.derived name declared).repeats

/-- The second number is found by two recursive rules in the same round. -/
def twoWays : Program where
  types := []
  relations :=
    [⟨⟨["start"]⟩, [⟨"a", ⟨["number"]⟩⟩], .standard, []⟩,
      ⟨⟨["step"]⟩, [⟨"a", ⟨["number"]⟩⟩, ⟨"b", ⟨["number"]⟩⟩], .standard, []⟩,
      ⟨⟨["jump"]⟩, [⟨"a", ⟨["number"]⟩⟩, ⟨"b", ⟨["number"]⟩⟩], .standard, []⟩,
      ⟨⟨["seen"]⟩, [⟨"a", ⟨["number"]⟩⟩], .standard, [.output]⟩]
  clauses :=
    [⟨⟨⟨["start"]⟩, [.constant (.number 1)]⟩, []⟩,
      ⟨⟨⟨["step"]⟩, [.constant (.number 1), .constant (.number 2)]⟩, []⟩,
      ⟨⟨⟨["jump"]⟩, [.constant (.number 1), .constant (.number 2)]⟩, []⟩,
      ⟨⟨⟨["seen"]⟩, [.var "x"]⟩, [.positive ⟨["start"]⟩ [.var "x"]]⟩,
      ⟨⟨⟨["seen"]⟩, [.var "y"]⟩, [.positive ⟨["seen"]⟩ [.var "x"], .positive ⟨["step"]⟩ [.var "x", .var "y"]]⟩,
      ⟨⟨⟨["seen"]⟩, [.var "y"]⟩, [.positive ⟨["seen"]⟩ [.var "x"], .positive ⟨["jump"]⟩ [.var "x", .var "y"]]⟩]

theorem guardable_twoWays : twoWays.Guardable where
  tables := by decide +kernel
  arities := by decide +kernel
  uncounted := by decide +kernel

/-- `twoWays`, lowered for provenance. -/
def recordedTwoWays : Ram.Program :=
  ((lowerProgram twoWays .provenance false).result.toOption).getD ⟨.empty, [], ⟨0, .sequence []⟩, [], .empty⟩

theorem lowered_twoWays : (lowerProgram twoWays .provenance false).result = .ok recordedTwoWays := by
  obtain ⟨compiled, lowered⟩ := exists_result (show (lowerProgram twoWays .provenance false).result.isOk by
    decide +kernel)
  rw [recordedTwoWays, lowered]
  rfl

/-- A run of three rounds from the empty store. -/
def runTwoWays : Except Halt Unit × State :=
  (runMain recordedTwoWays 3).run.run (.start recordedTwoWays .empty)

theorem runTwoWays_rows :
    runTwoWays.1.isOk = true ∧
      (runTwoWays.2.store.rows "seen").toList = [[1, 1, 1], [2, 2, 2], [2, 3, 2]] := by
  decide +kernel

/-- The rules with the numbers two and three are recursive. -/
theorem repeats_recursion_only_twoWays :
    twoWays.Guardable ∧ (lowerProgram twoWays .provenance false).result = .ok recordedTwoWays ∧
      Finishes recordedTwoWays (.start recordedTwoWays .empty) runTwoWays.2 ∧
      ∀ name ∈ twoWays.relationNames, RepeatsRecursionOnly twoWays name (runTwoWays.2.store.rows name.text) := by
  have finishes : Finishes recordedTwoWays (.start recordedTwoWays .empty) runTwoWays.2 := .of_isOk runTwoWays_rows.1
  exact ⟨guardable_twoWays, lowered_twoWays, finishes,
    repeats_recursion_only guardable_twoWays lowered_twoWays finishes⟩

/-- Two rows for the second number are stored: the guards look into a table that gets neither of them before the round
is over. -/
theorem twoWays_stores_twice :
    twoWays.Guardable ∧ (lowerProgram twoWays .provenance false).result = .ok recordedTwoWays ∧
      Finishes recordedTwoWays (.start recordedTwoWays .empty) runTwoWays.2 ∧
      [2, 2, 2] ∈ runTwoWays.2.store.rows "seen" ∧ [2, 3, 2] ∈ runTwoWays.2.store.rows "seen" ∧
      SameTuple twoWays ⟨["seen"]⟩ [2, 2, 2] [2, 3, 2] := by
  obtain ⟨isOk, seen⟩ := runTwoWays_rows
  refine ⟨guardable_twoWays, lowered_twoWays, .of_isOk isOk, ?_, ?_, by rw [SameTuple]; decide +kernel⟩
  · rw [Rows.mem_def, seen]
    decide
  · rw [Rows.mem_def, seen]
    decide

end DatalogRam
