import DatalogRam.Proofs.Provenance.Justified
import DatalogRam.Proofs.Provenance.Runs

/-!
# All rows of a run are justified

Every phase of the evaluation keeps all rows justified: queries add derived rows only, and between the rounds rows
just move from one table of a relation to another. Under provenance no relation is cleared.
-/

namespace DatalogRam.Lowering

open Machine Ram Analysis

variable {ordinal : String → Int64} {plan : Plan} {position : Nat} {start final : Store} {name : Name}

/-! ## Between the rounds -/

namespace Explained

/-- Rows stay explained if they move between the tables of one relation. -/
theorem move (regular : plan.program.Regular) (inside : InStratum plan.program position name)
    (explained : Explained ordinal plan (position + 1) start)
    (others : ∀ table, table ∉ tablesOf name → final.rows table = start.rows table)
    (kept : ∀ row ∈ start.rows name.text, row ∈ final.rows name.text)
    (rows : ∀ part, ∀ row ∈ final.rows (Part.table part name), ∃ other, row ∈ start.rows (Part.table other name))
    (stored : ∀ row ∈ final.rows (deltaName name), row ∈ final.rows name.text) :
    Explained ordinal plan (position + 1) final := by
  have apart (part : Part) {other : Name} (declared : other ∈ plan.program.relationNames) (different : other ≠ name) :
      final.rows (part.table other) = start.rows (part.table other) :=
    others _ (table_not_mem_tablesOf regular.distinct inside.declared declared different part)
  have grows : Grows plan position start final := by
    refine ⟨fun other declared row member => ?_, fun other declared outside => ?_⟩
    · by_cases same : other = name
      · subst same
        exact kept row member
      · have equal : final.rows other.text = start.rows other.text := apart .full declared same
        rwa [equal]
    · exact apart .full declared fun same => outside (same ▸ inside)
  refine explained.step regular (Nat.le_refl _) grows (fun part other declared row member => ?_)
    fun other declared row member => ?_
  · by_cases same : other = name
    · subst same
      exact .inl (rows part row member)
    · rw [apart part declared same] at member
      exact .inl ⟨part, member⟩
  · by_cases same : other = name
    · subst same
      exact stored row member
    · have equal : final.rows (deltaName other) = start.rows (deltaName other) := apart .delta declared same
      rw [equal] at member
      exact grows.kept other declared row (explained.stored other declared row member)

theorem seed (regular : plan.program.Regular) (inside : InStratum plan.program position name)
    (explained : Explained ordinal plan (position + 1) start) :
    Explained ordinal plan (position + 1) (start.merge name.text (deltaName name)) := by
  have fullDelta : name.text ≠ deltaName name :=
    @tables_apart _ name regular.distinct inside.declared .full .delta (by decide)
  have freshDelta : freshName name ≠ deltaName name :=
    @tables_apart _ name regular.distinct inside.declared .fresh .delta (by decide)
  have stored := explained.stored name inside.declared
  refine explained.move regular inside (fun table outside => ?_) (fun row member => ?_) (fun part row member => ?_)
    fun row member => ?_
  · rw [Store.rows_merge, if_neg fun same => outside (by simp [tablesOf, same])]
  · rwa [Store.rows_merge, if_neg fullDelta]
  · cases part with
    | full =>
        rw [Part.table, Store.rows_merge, if_neg fullDelta] at member
        exact ⟨.full, member⟩
    | delta =>
        rw [Part.table, Store.rows_merge, if_pos rfl, Rows.mem_union] at member
        exact ⟨.full, member.elim (stored row) id⟩
    | fresh =>
        rw [Part.table, Store.rows_merge, if_neg freshDelta] at member
        exact ⟨.fresh, member⟩
  · rw [Store.rows_merge, if_neg fullDelta]
    rw [Store.rows_merge, if_pos rfl, Rows.mem_union] at member
    exact member.elim (stored row) id

theorem advance (regular : plan.program.Regular) (inside : InStratum plan.program position name)
    (explained : Explained ordinal plan (position + 1) start) :
    Explained ordinal plan (position + 1) (advanced name start) := by
  obtain ⟨full, delta, fresh, others⟩ := rows_advanced regular.distinct inside.declared start
  refine explained.move regular inside others (fun row member => ?_) (fun part row member => ?_) fun row member => ?_
  · rw [full, Rows.mem_union]
    exact .inl member
  · cases part with
    | full =>
        rw [Part.table, full, Rows.mem_union] at member
        exact member.elim (fun member => ⟨.full, member⟩) fun member => ⟨.fresh, member⟩
    | delta =>
        rw [Part.table, delta] at member
        exact ⟨.fresh, member⟩
    | fresh =>
        rw [Part.table, fresh] at member
        exact absurd member (Rows.not_mem_empty row)
  · rw [delta] at member
    rw [full, Rows.mem_union]
    exact .inr member

theorem clearRounds (regular : plan.program.Regular) (inside : InStratum plan.program position name)
    (explained : Explained ordinal plan (position + 1) start) :
    Explained ordinal plan (position + 1) (cleared name start) := by
  obtain ⟨full, delta, fresh, others⟩ := rows_cleared regular.distinct inside.declared start
  refine explained.move regular inside others (fun row member => ?_) (fun part row member => ?_) fun row member => ?_
  · rwa [full]
  · cases part with
    | full =>
        rw [Part.table, full] at member
        exact ⟨.full, member⟩
    | delta =>
        rw [Part.table, delta] at member
        exact absurd member (Rows.not_mem_empty row)
    | fresh =>
        rw [Part.table, fresh] at member
        exact absurd member (Rows.not_mem_empty row)
  · rw [delta] at member
    exact absurd member (Rows.not_mem_empty row)

end Explained

/-! ## Queries -/

variable {args : Row} {stratum : Stratum}

/-- Queries of a stratum keep all rows explained. -/
theorem leads_explained (regular : plan.program.Regular) {part : Part} {tracked : Part → Name → Prop}
    {names : List Name} {queries : List Query} {statements : List Stmt}
    (runnable : ∀ query ∈ queries, Runnable plan tracked part names query)
    (isClause : ∀ query ∈ queries, plan.program.clauses[query.id]? = some query.clause ∧
      InStratum plan.program position query.clause.head.relation)
    (codes : queries.mapM (Query.code ordinal plan) = some statements)
    (explained : Explained ordinal plan (position + 1) start) :
    ∃ final, Explained ordinal plan (position + 1) final ∧
      ∀ rounds, Leads (runStmts rounds args statements) start .proceed final := by
  induction queries generalizing statements start with
  | nil =>
      cases codes
      exact ⟨start, explained, fun rounds => Leads.nil start⟩
  | cons query rest ih =>
      obtain ⟨statement, others, isCode, areCodes, rfl⟩ := mapM_cons_eq_some codes
      have here := runnable query List.mem_cons_self
      obtain ⟨atId, inside⟩ := isClause query List.mem_cons_self
      have long {part : Part} {atom : Atom} (isAtom : atom ∈ query.clause.atoms) {row : Row}
          (member : row ∈ start.rows (part.table atom.relation)) : row.length = atom.arity + plan.auxiliary := by
        obtain ⟨isDeclared, arity⟩ := here.declared atom isAtom
        rw [arity]
        exact (explained.justified part _ isDeclared row member).length regular
      have shaped : Shaped query.version plan.auxiliary query.clause.positiveAtoms start := by
        intro index atom atIndex row member
        rw [Version.source_eq] at member
        exact long (Clause.positive_mem_atoms (List.mem_of_getElem? atIndex)) member
      have headShaped : HeadShaped plan.auxiliary query.clause start :=
        fun row member => @long .full _ query.clause.head_mem_atoms row member
      have ran : ∃ middle, Queried ordinal plan query.clause query.id query.version start middle ∧
          ∀ rounds, Leads (runStmt rounds args statement) start .proceed middle :=
        returns_queried here.simple here.isFact here.separate shaped headShaped isCode
      obtain ⟨middle, queried, first⟩ := ran
      obtain ⟨final, isFinal, onward⟩ := ih (fun other member => runnable other (List.mem_cons_of_mem _ member))
        (fun other member => isClause other (List.mem_cons_of_mem _ member)) areCodes
        (explained.queried regular atId inside queried)
      exact ⟨final, isFinal, fun rounds => (first rounds).cons (onward rounds)⟩

theorem maintains_complete (regular : plan.program.Regular)
    (found : (strata plan.program)[position]? = some stratum) (args : Row) {queries : List (List Stmt)}
    (codes : stratum.relations.mapM (completeCode ordinal plan) = some queries) :
    Maintains args queries.flatten (Explained ordinal plan (position + 1)) (Explained ordinal plan (position + 1)) := by
  have areCodes : (completeQueries plan stratum.relations).mapM (Query.code ordinal plan) =
      some queries.flatten := by
    rw [← completeCode_eq, codes]
    rfl
  refine Maintains.of_leads fun start explained => ?_
  refine leads_explained regular (fun query member => runnable_complete regular found member) (fun query member => ?_)
    areCodes explained
  obtain ⟨atId, inside, _⟩ := mem_completeQueries.1 member
  exact ⟨atId, (inStratum_iff_mem found).2 inside⟩

/-! ## Rounds -/

theorem maintains_seeds (regular : plan.program.Regular)
    (found : (strata plan.program)[position]? = some stratum) (args : Row) :
    Maintains args (stratum.relations.map seedCode) (Explained ordinal plan (position + 1))
      (Explained ordinal plan (position + 1)) := by
  refine Maintains.of_leads fun start explained => ?_
  have ran : ∃ final, Explained ordinal plan (position + 1) final ∧ ∀ rounds,
      Leads (runStmts rounds args (stratum.relations.map fun name => [seedCode name]).flatten) start .proceed
        final := by
    refine Maintains.leads_flatten (fun name member store explained => ?_) explained
    exact ⟨_, explained.seed regular ((inStratum_iff_mem found).2 member),
      fun rounds => (Leads.merge name.text (deltaName name) store).singleton⟩
  rwa [← List.flatMap_def, ← List.map_eq_flatMap] at ran

theorem maintains_clearing (regular : plan.program.Regular)
    (found : (strata plan.program)[position]? = some stratum) (args : Row) :
    Maintains args (stratum.relations.map clearRoundsCode).flatten (Explained ordinal plan (position + 1))
      (Explained ordinal plan (position + 1)) := by
  refine Maintains.of_leads fun start explained => ?_
  refine Maintains.leads_flatten (fun name member store explained => ?_) explained
  exact ⟨_, explained.clearRounds regular ((inStratum_iff_mem found).2 member), fun rounds => leads_cleared name store⟩

theorem maintains_advances (regular : plan.program.Regular)
    (found : (strata plan.program)[position]? = some stratum) (args : Row) :
    Maintains args (stratum.relations.map advanceCode).flatten (Explained ordinal plan (position + 1))
      (Explained ordinal plan (position + 1)) := by
  refine Maintains.of_leads fun start explained => ?_
  refine Maintains.leads_flatten (fun name member store explained => ?_) explained
  exact ⟨_, explained.advance regular ((inStratum_iff_mem found).2 member), fun rounds => leads_advanced name store⟩

theorem maintains_loop (regular : plan.program.Regular)
    (found : (strata plan.program)[position]? = some stratum) (args : Row) {loop : Stmt}
    (code : loopCode ordinal plan stratum.relations = some loop) :
    Maintains args [loop] (Explained ordinal plan (position + 1)) (Explained ordinal plan (position + 1)) := by
  obtain ⟨queries, codes, rfl⟩ := Option.map_eq_some_iff.1 code
  have areCodes : (roundQueries plan stratum.relations).mapM (Query.code ordinal plan) =
      some queries.flatten := by
    rw [← recursiveCode_eq, codes]
    rfl
  have isClause : ∀ query ∈ roundQueries plan stratum.relations,
      plan.program.clauses[query.id]? = some query.clause ∧
        InStratum plan.program position query.clause.head.relation := by
    intro query member
    obtain ⟨atId, inside, _⟩ := mem_roundQueries.1 member
    exact ⟨atId, (inStratum_iff_mem found).2 inside⟩
  have searched : Maintains args queries.flatten (Explained ordinal plan (position + 1))
      (Explained ordinal plan (position + 1)) :=
    Maintains.of_leads fun start explained =>
      leads_explained regular
        (fun query member => runnable_round (regularIn_of_regular found regular) (followed_live regular found) member)
        isClause areCodes explained
  exact searched.loop (maintains_advances regular found args)

/-! ## Whole runs -/

theorem maintains_stratum (regular : plan.program.Regular)
    (found : (strata plan.program)[position]? = some stratum) (args : Row) {statement : Stmt}
    (code : stratumCode ordinal plan stratum = some statement) :
    Maintains args [statement] (Explained ordinal plan (position + 1)) (Explained ordinal plan (position + 1)) := by
  obtain ⟨queries, areQueries, code⟩ := Option.bind_eq_some_iff.1 code
  have once := maintains_complete regular found args areQueries
  split at code
  · obtain ⟨loop, isLoop, same⟩ := Option.bind_eq_some_iff.1 code
    cases same
    exact (((once.append (maintains_seeds regular found args)).append
      (maintains_loop regular found args isLoop)).append (maintains_clearing regular found args)).sequence
  · cases code
    exact once.sequence

/-- After a run for provenance all rows are justified. -/
theorem explained_of_finishes {program : Program} {debugInfo : Bool} {compiled : Ram.Program} {last : State}
    (regular : program.Regular) (apart : ∀ table ∈ infoTables program, table ∉ tableNames program)
    (planned : Plan.of program .provenance debugInfo = .ok plan)
    (lowered : (lowerProgram program .provenance debugInfo).result = .ok compiled)
    (finishes : Finishes compiled (.start compiled .empty) last) :
    Explained compiled.symbols.ordinal plan (strata program).length last.store := by
  obtain ⟨_, rfl, _⟩ := scheduled_of planned
  refine of_recordedRun planned lowered apart (fun position stratum evaluation found code => ?_)
    (fun position store table row isApart explained => ?_) Explained.empty finishes
  · exact (maintains_stratum regular found [] code).consequence
      (fun store explained => explained.mono (Nat.le_succ position)) fun store explained => explained
  · exact explained.congr regular fun part name declared => rows_insert_apart isApart row part declared

end DatalogRam.Lowering
