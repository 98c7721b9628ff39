import DatalogRam.Proofs.Lowering.DeclaredTables
import DatalogRam.Proofs.Lowering.StoreChanges
import DatalogRam.Proofs.Provenance.Repetitions

/-!
# Info relations describe the rules exactly

Evaluation comes to its end without touching an info relation, and the code after it puts one row into each. The texts
of the row were interned when the program was lowered, so their ordinals can be decoded after any run.
-/

namespace DatalogRam

open Analysis Machine Ram

namespace Lowering

/-! ## Evaluation proceeds -/

/-- Statements that come to their end, if they end without a fault. -/
def Proceeds (args : Row) (statements : List Stmt) : Prop :=
  Maintains args statements (fun _ => True) fun _ => True

section Proceeding

variable {ordinal : String → Int64} {plan : Plan} {args : Row} {statement : Stmt}

theorem proceeds_management (statement : Stmt) (manages : statement.IsManagement) : Proceeds args [statement] := by
  intro rounds state last flow _ returns
  rw [runStmts_singleton] at returns
  cases statement with
  | clear | swap | merge =>
      rw [runStmt] at returns
      exact ⟨(returns.unique (Returns.modifyStore _ state)).1, trivial⟩
  | _ => cases manages

theorem proceeds_insert (relation : String) (values : List Expr) :
    Op.Keeps args (fun _ => True) (.insert relation values) := by
  intro state last flow _ returns
  rw [runOp] at returns
  obtain ⟨row, _, _, returns⟩ := returns.of_bind
  obtain ⟨_, _, _, done⟩ := returns.of_bind
  exact ⟨done.eq_of_pure.1, trivial⟩

theorem proceeds_clauseCode {clause : Clause} {id : Nat} {version : Version}
    (code : clauseCode ordinal plan clause id version = some statement) : Proceeds args [statement] := by
  obtain ⟨operation, rfl, keeps⟩ := @of_clauseCode ordinal plan clause id version (Op.Keeps args fun _ => True) statement
    (fun condition _ keeps => keeps.filter condition)
    (fun relation tuple function value condition _ keeps => keeps.aggregate relation tuple function value condition)
    (fun relation tuple _ keeps => keeps.scan relation tuple)
    (fun sites level operation isHead => by
      obtain ⟨_, _, _, _, rfl⟩ := headCode_eq_some isHead
      exact of_underGuard (fun condition _ keeps => keeps.filter condition) (proceeds_insert _ _) _) code
  exact maintains_withText keeps.maintains

theorem proceeds_queries {queries : List Query} {statements : List Stmt}
    (codes : queries.mapM (Query.code ordinal plan) = some statements) : Proceeds args statements := by
  apply Maintains.all
  intro statement member
  obtain ⟨query, _, code⟩ := mem_of_mapM codes member
  exact proceeds_clauseCode code

/-- Only loops are left by their exits, so a stratum comes to its end. -/
theorem proceeds_stratumCode {stratum : Stratum} (code : stratumCode ordinal plan stratum = some statement) :
    Proceeds args [statement] := by
  have managed {parts : Name → List Stmt} (each : ∀ name, ∀ statement ∈ parts name, statement.IsManagement) :
      Proceeds args (stratum.relations.map parts).flatten :=
    Maintains.all fun statement member =>
      proceeds_management statement (management_parts each stratum.relations statement member)
  obtain ⟨once, areOnce, shape⟩ := stratumCode_eq_some code
  split at shape
  · obtain ⟨queries, areRounds, rfl⟩ := shape
    have seeds : Proceeds args (stratum.relations.map seedCode) := by
      apply Maintains.all
      intro statement member
      obtain ⟨name, _, rfl⟩ := List.mem_map.1 member
      exact proceeds_management _ trivial
    have advances : Proceeds args (stratum.relations.map advanceCode).flatten :=
      managed fun name => by simp [advanceCode, Stmt.IsManagement]
    have clears : Proceeds args (stratum.relations.map clearRoundsCode).flatten :=
      managed fun name => by simp [clearRoundsCode, Stmt.IsManagement]
    have loop : Proceeds args [.loop (roundCode stratum.relations queries)] :=
      (proceeds_queries areRounds).loop advances
    exact ((proceeds_queries areOnce).append ((seeds.append loop).append clears)).sequence
  · subst shape
    exact (proceeds_queries areOnce).sequence

theorem proceeds_evaluationCode (scheduled : plan.Scheduled) (strategy : plan.strategy = .provenance)
    (code : evaluationCode ordinal plan = some statement) : Proceeds args [statement] :=
  @maintains_evaluation ordinal plan args statement (fun _ _ => True) scheduled strategy
    (fun _ _ _ _ isEvaluation => proceeds_stratumCode isEvaluation) code

end Proceeding

/-- Statements that come to their end keep the rows of a table that they may not change. -/
theorem Proceeds.keeps_rows {args : Row} {statement : Stmt} {table : String} (proceeds : Proceeds args [statement])
    (allows : Allows (fun change => table ∉ change.tables) statement) (rows : Rows) :
    Maintains args [statement] (fun store => store.rows table = rows) fun store => store.rows table = rows := by
  intro rounds state last flow isBefore returns
  refine ⟨(proceeds rounds state last flow trivial returns).1, ?_⟩
  rw [runStmts_singleton] at returns
  have kept := rows_of_allows allows rounds args state
  rw [returns] at kept
  exact kept.trans isBefore

/-! ## Filling the info relations -/

section Filling

variable {ordinal : String → Int64} {plan : Plan}

/-- Every info relation gets the row of its rule, and no other table gets a row. -/
theorem leads_descriptions {entries : List (Clause × Nat)} {statements : List Stmt}
    (areRules : ∀ entry ∈ entries, entry ∈ describedRules plan.program)
    (distinct : (entries.map (describingTable plan.program)).Nodup)
    (codes : entries.mapM (infoCode ordinal plan) = some statements) (args : Row) (start : Store) :
    ∃ final, (∀ rounds, Leads (runStmts rounds args statements) start .proceed final) ∧
      (∀ table, table ∉ entries.map (describingTable plan.program) → final.rows table = start.rows table) ∧
      ∀ entry ∈ entries, ∃ description,
        describeClause entry.1 (ruleNumber plan.program entry) = .ok description ∧
          final.rows (describingTable plan.program entry) =
            (start.rows (describingTable plan.program entry)).insert
              (infoRow ordinal plan (ruleNumber plan.program entry) description) := by
  induction entries generalizing statements start with
  | nil =>
      cases codes
      exact ⟨start, fun _ => Leads.nil start, fun _ _ => rfl, fun _ member => absurd member List.not_mem_nil⟩
  | cons entry rest ih =>
      obtain ⟨query, others, isQuery, areOthers, rfl⟩ := mapM_cons_eq_some codes
      obtain ⟨description, isDescription, rfl⟩ := infoCode_eq_some (areRules entry List.mem_cons_self) isQuery
      let row := infoRow ordinal plan (ruleNumber plan.program entry) description
      rw [List.map_cons, List.nodup_cons] at distinct
      obtain ⟨final, onward, kept, filled⟩ := ih (fun other member => areRules other (List.mem_cons_of_mem _ member))
        distinct.2 areOthers (start.insert (describingTable plan.program entry) row)
      refine ⟨final, fun rounds => (leads_insert rounds args _ row start).cons (onward rounds), fun table outside => ?_,
        List.forall_mem_cons.2 ⟨⟨description, isDescription, ?_⟩, fun other member => ?_⟩⟩
      · rw [List.map_cons, List.mem_cons, not_or] at outside
        rw [kept table outside.2, Store.rows_insert, if_neg outside.1]
      · rw [kept _ distinct.1, Store.rows_insert, if_pos rfl]
      · obtain ⟨found, isFound, rows⟩ := filled other member
        have apart : describingTable plan.program other ≠ describingTable plan.program entry :=
          fun same => distinct.1 (same ▸ List.mem_map_of_mem member)
        refine ⟨found, isFound, ?_⟩
        rw [rows, Store.rows_insert, if_neg apart]

end Filling

/-! ## Interned texts -/

section Interning

variable {program : Program} {debugInfo : Bool} {compiled : Ram.Program}

/-- The texts of a description are interned: a text that is not could have any ordinal, but the code is the same
whatever ordinals such texts have. -/
theorem interned_of_described (lowered : (lowerProgram program .provenance debugInfo).result = .ok compiled)
    {entry : Clause × Nat} (isRule : entry ∈ describedRules program) {description : Description}
    (isDescription : describeClause entry.1 (ruleNumber program entry) = .ok description) {text : String}
    (member : text ∈ description.head :: description.literals) :
    ∃ index, compiled.symbols.lookup? text = some index := by
  obtain ⟨plan, _, infos, planned, codes, _⟩ := codes_of_agreeing lowered
  obtain ⟨_, rfl, _⟩ := scheduled_of planned
  rw [← Option.isSome_iff_exists]
  by_contra missing
  rw [Option.not_isSome_iff_eq_none] at missing
  let other := fun some : String =>
    if some = text then compiled.symbols.ordinal text + 1 else compiled.symbols.ordinal some
  have agrees : compiled.symbols.Agrees other := by
    intro some index found
    have different : some ≠ text := by
      rintro rfl
      rw [missing] at found
      cases found
    exact (if_neg different).trans (Symbols.agrees_ordinal _ some index found)
  obtain ⟨queries, areQueries, isInfos⟩ := Option.map_eq_some_iff.1 (codes _ (Symbols.agrees_ordinal _)).2
  obtain ⟨others, areOthers, alsoInfos⟩ := Option.map_eq_some_iff.1 (codes other agrees).2
  obtain rfl : others = queries := Stmt.sequence.inj (alsoInfos.trans isInfos.symm)
  have sameCode : infoCode compiled.symbols.ordinal plan entry = infoCode other plan entry :=
    same_of_mapM areQueries areOthers isRule
  rw [infoCode_of_described isRule isDescription, infoCode_of_described isRule isDescription] at sameCode
  have sameRow := List.map_injective_iff.2 (fun _ _ => Expr.signed.inj) (Op.insert.inj
    (Stmt.query.inj (Option.some.inj sameCode))).2
  have sameTexts := List.append_cancel_right (List.cons.inj sameRow).2
  have sameOrdinal : compiled.symbols.ordinal text = other text := List.map_inj_left.1 sameTexts text member
  rw [show other text = _ from if_pos rfl] at sameOrdinal
  grind

end Interning

/-! ## One text for each atom -/

/-- Whether a literal is described by a text. -/
def isDescribed (literal : Literal) : Bool :=
  literal.positiveAtom?.isSome || literal.negatedAtom?.isSome

theorem isSome_describedLiteral {literal : Literal} {text : Option String} {before after : Named}
    (described : (describeLiteral literal).run before = .ok (text, after)) : text.isSome = isDescribed literal := by
  cases literal with
  | positive relation args =>
      rw [describeLiteral, StateT.run_bind] at described
      obtain ⟨_, _, last⟩ := of_bind_eq_ok described
      cases last
      rfl
  | negative | comparison | truth =>
      cases described
      rfl

theorem length_describedLiterals {body : List Literal} {texts : List String} {before after : Named}
    (described : (body.filterMapM describeLiteral).run before = .ok (texts, after)) :
    texts.length = body.countP isDescribed := by
  induction body generalizing texts before with
  | nil =>
      cases described
      rfl
  | cons literal rest ih =>
      rw [List.filterMapM_cons, StateT.run_bind] at described
      obtain ⟨⟨text, between⟩, first, described⟩ := of_bind_eq_ok described
      rw [List.countP_cons, ← isSome_describedLiteral first]
      cases text with
      | none => exact ih described
      | some text =>
          obtain ⟨⟨others, last⟩, second, same⟩ := of_bind_eq_ok described
          cases same
          exact congrArg (· + 1) (ih second)

theorem countP_isDescribed (body : List Literal) :
    body.countP isDescribed =
      (body.filterMap Literal.positiveAtom?).length + (body.filterMap Literal.negatedAtom?).length := by
  induction body with
  | nil => rfl
  | cons literal rest ih =>
      rw [List.countP_cons, ih]
      cases literal with
      | positive => exact Nat.add_right_comm _ _ _
      | negative | comparison | truth => rfl

theorem length_literals {clause : Clause} {number : Nat} {description : Description}
    (isDescription : describeClause clause number = .ok description) :
    description.literals.length = clause.positiveAtoms.length + clause.negatedAtoms.length := by
  obtain ⟨⟨_, _⟩, described, same⟩ := of_bind_eq_ok isDescription
  cases same
  obtain ⟨⟨_, _⟩, _, described⟩ := of_bind_eq_ok described
  obtain ⟨⟨literals, _⟩, areLiterals, same⟩ := of_bind_eq_ok described
  cases same
  rw [length_describedLiterals areLiterals]
  exact countP_isDescribed clause.body

/-! ## The relation of a rule -/

section Rules

variable {program : Program} {debugInfo : Bool} {compiled : Ram.Program} {final : State} {entry : Clause × Nat}

/-- A rule with a description has a table for it. -/
theorem describingTable_declared (distinct : (tableNames program ++ infoTables program).Nodup)
    (lowered : (lowerProgram program .provenance debugInfo).result = .ok compiled)
    (isRule : entry ∈ describedRules program) {description : Description}
    (isDescription : describeClause entry.1 (ruleNumber program entry) = .ok description) :
    ∃ table, compiled.table? (describingTable program entry) = some table ∧
      table.arity = description.literals.length + 2 + 2 := by
  obtain ⟨plan, planned, tables, once⟩ := tables_of_lowered distinct lowered
  obtain ⟨_, rfl, strategy⟩ := scheduled_of planned
  obtain ⟨_, declared, notFact⟩ := mem_describedRules.1 isRule
  let name := infoName entry.1.head.relation (ruleNumber plan.program entry)
  have isTable : ruleTable plan entry = .ok (infoTable plan name description.literals.length) :=
    ruleTable_eq_ok.2 ⟨_, description, clauseNumber_of_rule declared notFact, isDescription, rfl⟩
  have member : infoTable plan name description.literals.length ∈ compiled.tables := by
    rw [tables, declaredTables, ruleTables, strategy]
    exact List.mem_append_right _ (List.mem_filterMap.2 ⟨entry, isRule, by rw [isTable]; rfl⟩)
  refine ⟨_, findTable?_of_mem once member, ?_⟩
  rw [(of_infoTable name _).1, Plan.auxiliary, strategy]
  rfl

/-- A run for provenance fills the info relations and nothing else goes into them. -/
theorem filled_of_finishes (distinct : (tableNames program ++ infoTables program).Nodup)
    (lowered : (lowerProgram program .provenance debugInfo).result = .ok compiled)
    (finishes : Finishes compiled (.start compiled .empty) final) (isRule : entry ∈ describedRules program) :
    ∃ description, describeClause entry.1 (ruleNumber program entry) = .ok description ∧
      (final.store.rows (describingTable program entry)).toList =
        [Int64.ofNat (ruleNumber program entry) ::
          ((description.head :: description.literals).map compiled.symbols.ordinal ++ [0, 0])] := by
  obtain ⟨plan, evaluation, infos, planned, isEvaluation, areInfos, main⟩ := codes_of_lowered lowered
  obtain ⟨scheduled, rfl, strategy⟩ := scheduled_of planned
  obtain ⟨queries, areQueries, rfl⟩ := Option.map_eq_some_iff.1 areInfos
  let table := describingTable plan.program entry
  have apart : table ∉ tableNames plan.program := fun inside =>
    (List.nodup_append.1 distinct).2.2 _ inside _ (List.mem_map.2 ⟨entry, isRule, rfl⟩) rfl
  have frame : Allows (fun change => table ∉ change.tables) evaluation := by
    refine Allows.mono (fun change isChange inside => ?_) _ (allows_evaluationCode scheduled strategy isEvaluation)
    obtain ⟨name, declared, isTable⟩ := isChange.tables inside
    exact apart (List.mem_flatMap.2 ⟨name, declared, isTable⟩)
  have untouched := (@proceeds_evaluationCode _ _ [] _ scheduled strategy isEvaluation).keeps_rows frame .empty
  have filled : Maintains [] [.sequence queries] (fun store => store.rows table = .empty) fun store =>
      ∃ description, describeClause entry.1 (ruleNumber plan.program entry) = .ok description ∧
        store.rows table =
          Rows.empty.insert (infoRow compiled.symbols.ordinal plan (ruleNumber plan.program entry) description) := by
    refine (Maintains.of_leads fun start isEmpty => ?_).sequence
    obtain ⟨last, leads, _, each⟩ :=
      leads_descriptions (fun _ member => member) (List.nodup_append.1 distinct).2.1 areQueries [] start
    obtain ⟨description, isDescription, rows⟩ := each entry isRule
    exact ⟨last, ⟨description, isDescription, isEmpty ▸ rows⟩, leads⟩
  have both := (untouched.append filled).sequence
  rw [List.singleton_append, ← main] at both
  obtain ⟨description, isDescription, rows⟩ := both.of_finishes rfl finishes
  refine ⟨description, isDescription, ?_⟩
  rw [rows, infoRow, Plan.auxiliary, strategy]
  rfl

/-- Every symbol of a program is at its place after a run. -/
theorem symbols_of_finishes (lowered : (lowerProgram program .provenance debugInfo).result = .ok compiled)
    {store : Store} (finishes : Finishes compiled (.start compiled store) final) :
    final.symbols.Extends compiled.symbols := by
  obtain ⟨rounds, returns⟩ := finishes
  obtain ⟨_, _, _, extends', _⟩ := logs_main (allows_lowered lowered) rounds (.start compiled store) []
  rwa [returns] at extends'

end Rules

end Lowering

open Lowering

variable {program : Program} {debugInfo : Bool} {compiled : Ram.Program} {final : State} {clause : Clause} {id : Nat}

/-- The info relation of a rule has a column for the number of the rule, one for its head, one for each of its atoms
and two for bookkeeping. After a run its only row holds the number, the ordinals of the texts that describe the rule,
and zeros. All of these texts are interned, and each ordinal is decoded to its text, unless there are more texts than
there are ordinals. -/
theorem info_relation_exact (distinct : (tableNames program ++ infoTables program).Nodup)
    (lowered : (lowerProgram program .provenance debugInfo).result = .ok compiled)
    (finishes : Finishes compiled (.start compiled .empty) final) (isClause : program.clauses[id]? = some clause)
    (declared : clause.head.relation ∈ program.relationNames) (isRule : clause.isFact = false) :
    ∃ description table,
      describeClause clause (ruleNumber program (clause, id)) = .ok description ∧
      description.literals.length = clause.positiveAtoms.length + clause.negatedAtoms.length ∧
      compiled.table? (describingTable program (clause, id)) = some table ∧
      table.arity = 2 + (clause.positiveAtoms.length + clause.negatedAtoms.length) + 2 ∧
      (final.store.rows (describingTable program (clause, id))).toList =
        [Int64.ofNat (ruleNumber program (clause, id)) ::
          ((description.head :: description.literals).map final.symbols.ordinal ++ [0, 0])] ∧
      ∀ text ∈ description.head :: description.literals, ∃ index, final.symbols.lookup? text = some index ∧
        (index < 2 ^ 63 → final.symbols.decode? (final.symbols.ordinal text) = some text) := by
  have described : (clause, id) ∈ describedRules program := mem_describedRules.2 ⟨isClause, declared, isRule⟩
  obtain ⟨description, isDescription, row⟩ := filled_of_finishes distinct lowered finishes described
  obtain ⟨table, isTable, arity⟩ := describingTable_declared distinct lowered described isDescription
  have extends' := symbols_of_finishes lowered finishes
  have interned : ∀ text ∈ description.head :: description.literals, ∃ index,
      compiled.symbols.lookup? text = some index :=
    fun text member => interned_of_described lowered described isDescription member
  have count : description.literals.length = clause.positiveAtoms.length + clause.negatedAtoms.length :=
    length_literals isDescription
  refine ⟨description, table, isDescription, count, isTable, ?_, ?_, fun text member => ?_⟩
  · rw [arity, count]
    omega
  · rw [row]
    have sameOrdinals : (description.head :: description.literals).map compiled.symbols.ordinal =
        (description.head :: description.literals).map final.symbols.ordinal := by
      refine List.map_congr_left fun text member => ?_
      obtain ⟨index, found⟩ := interned text member
      rw [Symbols.ordinal, Symbols.ordinal, found, extends' text index found]
    rw [sameOrdinals]
  · obtain ⟨index, found⟩ := interned text member
    exact ⟨index, extends' text index found, fun fits => Symbols.decode?_ordinal (extends' text index found) fits⟩

/-- The second rule of `seen` has two atoms. -/
theorem info_relation_exact_twoWays :
    (tableNames twoWays ++ infoTables twoWays).Nodup ∧
      (lowerProgram twoWays .provenance false).result = .ok recordedTwoWays ∧
      Finishes recordedTwoWays (.start recordedTwoWays .empty) runTwoWays.2 ∧
      ∃ table, recordedTwoWays.table? "seen.@info.2" = some table ∧ table.arity = 2 + 2 + 2 ∧
        (runTwoWays.2.store.rows "seen.@info.2").toList =
          [2 :: (["y", "seen,x", "step,x,y"].map runTwoWays.2.symbols.ordinal ++ [0, 0])] ∧
        ∀ text ∈ ["y", "seen,x", "step,x,y"],
          runTwoWays.2.symbols.decode? (runTwoWays.2.symbols.ordinal text) = some text := by
  have finishes : Finishes recordedTwoWays (.start recordedTwoWays .empty) runTwoWays.2 := .of_isOk runTwoWays_rows.1
  refine ⟨guardable_twoWays.tables, lowered_twoWays, finishes, ?_⟩
  obtain ⟨description, table, isDescription, _, isTable, arity, row, decoded⟩ :=
    @info_relation_exact twoWays false recordedTwoWays runTwoWays.2
      ⟨⟨⟨["seen"]⟩, [.var "y"]⟩, [.positive ⟨["seen"]⟩ [.var "x"], .positive ⟨["step"]⟩ [.var "x", .var "y"]]⟩ 4
      guardable_twoWays.tables lowered_twoWays finishes rfl (by decide +kernel) rfl
  obtain rfl : ⟨2, "y", ["seen,x", "step,x,y"]⟩ = description :=
    Except.ok.inj (Eq.trans (by decide +kernel) isDescription)
  refine ⟨table, isTable, arity, row, fun text member => ?_⟩
  obtain ⟨index, found, isText⟩ := decoded text member
  have small : runTwoWays.2.symbols.size ≤ 2 ^ 63 := by decide +kernel
  obtain ⟨inside, _⟩ := Array.getElem?_eq_some_iff.1 (Symbols.lookup?_eq_some_iff.1 found)
  exact isText (Nat.lt_of_lt_of_le inside small)

end DatalogRam
