import DatalogRam.Proofs.Evaluation.Whole
import DatalogRam.Proofs.Lowering.Programs

/-!
# Info relations

The code that fills info relations comes after the evaluation. It inserts constant rows into tables of their own,
so the contents of the declared relations stay as they are.
-/

namespace DatalogRam.Lowering

open Machine Ram Analysis

/-- The number of a rule among those of its relation. -/
def ruleNumber (program : Program) (entry : Clause × Nat) : Nat :=
  ((program.clausesOf entry.1.head.relation).filter fun other =>
    !other.1.isFact && decide (other.2 < entry.2)).length + 1

/-- The names of the info relations of all rules. -/
def infoTables (program : Program) : List String :=
  (describedRules program).map fun entry => (infoName entry.1.head.relation (ruleNumber program entry)).text

/-- The name of the info relation of a rule. -/
def describingTable (program : Program) (entry : Clause × Nat) : String :=
  (infoName entry.1.head.relation (ruleNumber program entry)).text

variable {ordinal : String → Int64} {plan : Plan} {position : Nat}

theorem clauseNumber_of_rule {entry : Clause × Nat}
    (declared : entry.1.head.relation ∈ plan.program.relationNames) (isRule : entry.1.isFact = false) :
    plan.clauseNumber entry.1 entry.2 = .ok (ruleNumber plan.program entry) := by
  obtain ⟨relation, found⟩ := Program.exists_relation declared
  rw [Plan.clauseNumber, Program.declares, found, isRule]
  rfl

theorem mem_describedRules {program : Program} {entry : Clause × Nat} :
    entry ∈ describedRules program ↔ program.clauses[entry.2]? = some entry.1 ∧
      entry.1.head.relation ∈ program.relationNames ∧ entry.1.isFact = false := by
  obtain ⟨clause, id⟩ := entry
  simp only [describedRules, List.mem_flatMap, List.mem_filter, Program.mem_clausesOf, Program.relationNames,
    List.mem_map, Bool.not_eq_true']
  constructor
  · rintro ⟨relation, member, ⟨atId, isHead⟩, isRule⟩
    exact ⟨atId, ⟨relation, member, isHead.symm⟩, isRule⟩
  · rintro ⟨atId, ⟨relation, member, isHead⟩, isRule⟩
    exact ⟨relation, member, ⟨atId, isHead.symm⟩, isRule⟩

theorem infoCode_of_described {entry : Clause × Nat} (isRule : entry ∈ describedRules plan.program)
    {description : Description}
    (isDescription : describeClause entry.1 (ruleNumber plan.program entry) = .ok description) :
    infoCode ordinal plan entry = some (.query (.insert (describingTable plan.program entry)
      ((infoRow ordinal plan (ruleNumber plan.program entry) description).map Expr.signed))) := by
  obtain ⟨_, declared, isRule⟩ := mem_describedRules.1 isRule
  rw [infoCode, clauseNumber_of_rule declared isRule]
  change (describeClause entry.1 (ruleNumber plan.program entry)).toOption.bind _ = _
  rw [isDescription]
  rfl

/-- The query of an info relation inserts the description of its rule. -/
theorem infoCode_eq_some {entry : Clause × Nat} {query : Stmt} (isRule : entry ∈ describedRules plan.program)
    (code : infoCode ordinal plan entry = some query) :
    ∃ description, describeClause entry.1 (ruleNumber plan.program entry) = .ok description ∧
      query = .query (.insert (describingTable plan.program entry)
        ((infoRow ordinal plan (ruleNumber plan.program entry) description).map Expr.signed)) := by
  obtain ⟨_, declared, notFact⟩ := mem_describedRules.1 isRule
  obtain ⟨number, isNumber, described⟩ := Option.bind_eq_some_iff.1 code
  obtain ⟨description, isDescription, _⟩ := Option.bind_eq_some_iff.1 described
  rw [clauseNumber_of_rule declared notFact] at isNumber
  cases isNumber
  have isDescription := eq_ok_of_toOption isDescription
  rw [infoCode_of_described isRule isDescription] at code
  exact ⟨description, isDescription, (Option.some.inj code).symm⟩

theorem returns_signed (args : Row) (row : Row) (state : State) :
    Returns (evalExprs args (row.map Expr.signed)) state row state := by
  induction row with
  | nil =>
      rw [List.map_nil, evalExprs]
      exact Returns.pure _ _
  | cons value rest ih =>
      rw [List.map_cons, evalExprs, evalExpr]
      exact (Returns.pure value state).bind (ih.bind (Returns.pure _ _))

theorem leads_insert (rounds : Nat) (args : Row) (table : String) (row : Row) (start : Store) :
    Leads (runStmt rounds args (.query (.insert table (row.map Expr.signed)))) start .proceed
      (start.insert table row) := by
  rintro state rfl
  refine ⟨state.bindings, ?_⟩
  rw [runStmt, runOp]
  exact (returns_signed args row state).bind rfl

theorem Part.mem_tableNames {program : Program} (part : Part) {name : Name} (declared : name ∈ program.relationNames) :
    part.table name ∈ tableNames program :=
  List.mem_flatMap.2 ⟨name, declared, part.table_mem name⟩

theorem rows_insert_apart {program : Program} {start : Store} {table : String} (apart : table ∉ tableNames program)
    (row : Row) (part : Part) {name : Name} (declared : name ∈ program.relationNames) :
    (start.insert table row).rows (part.table name) = start.rows (part.table name) := by
  have different : part.table name ≠ table := fun equal => apart (equal ▸ part.mem_tableNames declared)
  rw [Store.rows_insert, if_neg different]

/-- An insertion into another table leaves the contents as they are. -/
theorem AtRest.insert {facts : Facts} {start : Store} (atRest : AtRest plan position facts start) {table : String}
    (apart : table ∉ tableNames plan.program) (row : Row) :
    AtRest plan position facts (start.insert table row) := by
  constructor
  · intro part name declared live other member
    rw [rows_insert_apart apart row part declared] at member
    exact atRest.shaped part name declared live other member
  · intro part name declared live
    rw [content_congr (rows_insert_apart apart row part declared)]
    exact atRest.same part name declared live

/-- Filling the info relations keeps whatever insertions into other tables keep. -/
theorem leads_infos (apart : ∀ table ∈ infoTables plan.program, table ∉ tableNames plan.program) (args : Row)
    {statements : List Stmt} (codes : (describedRules plan.program).mapM (infoCode ordinal plan) = some statements)
    {holds : Store → Prop}
    (insert : ∀ store table row, table ∉ tableNames plan.program → holds store → holds (store.insert table row))
    {start : Store} (isStart : holds start) :
    ∃ final, holds final ∧ ∀ rounds, Leads (runStmts rounds args statements) start .proceed final := by
  have inserts : ∀ entry ∈ describedRules plan.program, ∀ query, infoCode ordinal plan entry = some query →
      ∃ (table : String) (row : Row), table ∉ tableNames plan.program ∧
        query = .query (.insert table (row.map Expr.signed)) := by
    intro entry isRule query isQuery
    obtain ⟨description, _, rfl⟩ := infoCode_eq_some isRule isQuery
    exact ⟨_, _, apart _ (List.mem_map.2 ⟨entry, isRule, rfl⟩), rfl⟩
  revert inserts codes
  generalize describedRules plan.program = entries
  intro codes inserts
  induction entries generalizing statements start with
  | nil =>
      cases codes
      exact ⟨start, isStart, fun rounds => Leads.nil start⟩
  | cons entry rest ih =>
      obtain ⟨query, others, isQuery, areOthers, rfl⟩ := mapM_cons_eq_some codes
      obtain ⟨table, row, isApart, rfl⟩ := inserts entry List.mem_cons_self query isQuery
      obtain ⟨final, isFinal, onward⟩ := ih (insert start table row isApart isStart) areOthers
        fun other member => inserts other (List.mem_cons_of_mem _ member)
      exact ⟨final, isFinal, fun rounds => (leads_insert rounds args table row start).cons (onward rounds)⟩

/-- Filling the info relations leaves the evaluated facts as they are. -/
theorem computes_infos (apart : ∀ table ∈ infoTables plan.program, table ∉ tableNames plan.program) (args : Row)
    {statement : Stmt} (code : infosCode ordinal plan = some statement) :
    Computes args [statement] (AtRest plan position) (fun facts final => final = facts) (AtRest plan position) := by
  obtain ⟨queries, areQueries, rfl⟩ := Option.map_eq_some_iff.1 code
  refine (Computes.of_leads fun facts start isStart => ?_).sequence
  exact leads_infos apart args areQueries (fun store table row isApart atRest => atRest.insert isApart row) isStart

end DatalogRam.Lowering
