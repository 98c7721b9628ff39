import DatalogRam.Proofs.Lowering.Total

/-!
# A query inserts the consequences of its clause

For a clause whose variables are bound by positive atoms, the query over complete relations inserts exactly the rows
that the clause derives from the stored ones. A version for a loop reads one atom in the rows of the previous round,
and keeps apart what it derives and the relation of the head does not have. Nothing else is changed.
-/

namespace DatalogRam

open Machine Ram

/-- A rule that scans direct arguments and computes terms over declared relations, and whose variables are bound. -/
structure Clause.Evaluable (program : Program) (clause : Clause) : Prop where
  rule : clause.isFact = false
  simple : clause.Simple
  bound : clause.Bound
  declared : Lowering.Clause.Declared program clause

namespace Lowering

/-- The rows of every declared relation, also those for rounds, have the declared arity. -/
def HasShape (program : Program) (store : Store) : Prop :=
  ∀ (part : Part) (name : Name), name ∈ program.relationNames →
    ∀ row ∈ store.rows (part.table name), row.length = arityOf program name

/-- The rows of the tables for some part. -/
def rowsIn (store : Store) (part : Part) : Facts := fun name => {row | row ∈ store.rows (part.table name)}

/-- A statement adds rows to a table and changes nothing else. The rows that it binds on the way stay bound. -/
def Adds (statement : Stmt) (state : State) (table : String) (rows : Set Row) : Prop :=
  ∀ args : Row, ∃ store : Store,
    (∀ row, row ∈ store.rows table ↔ row ∈ state.store.rows table ∨ row ∈ rows) ∧
    (∀ other, other ≠ table → store.rows other = state.store.rows other) ∧
    ∀ rounds, ∃ bindings, Returns (runStmt rounds args statement) state .proceed
      { state with store := store, bindings := bindings }

variable {plan : Plan} {clause : Clause}

/-- A store with rows of the declared arity represents its rows, if there are no bookkeeping columns. -/
theorem HasShape.represents {program : Program} {store : Store} (shaped : HasShape program store) :
    Represents program 0 (fun _ _ => True) store (rowsIn store) where
  shaped := fun part name declared _ => shaped part name declared
  same := fun part name declared _ => content_of_shaped (shaped part name declared)

/-- The query of a translation inserts what the version of the clause adds. -/
theorem exists_adding (distinct : (tableNames plan.program).Nodup) (strategy : plan.strategy = .seminaive)
    (evaluable : clause.Evaluable plan.program) (translation : Translation)
    (others : (translation.version clause).isIncremental = false → Clause.ReadsOthers clause) (id : Nat)
    (draft : Draft) :
    ∃ body last, outcome (translation.lower plan clause id) draft = (.ok body, last) ∧
      ∀ state : State, state.symbols.Extends last.symbols → HasShape plan.program state.store →
        Adds body.tree state ((translation.version clause).part.table clause.head.relation)
          ((translation.version clause).adds state.symbols.ordinal clause (rowsIn state.store)) := by
  have grounded : Clause.Grounded clause := grounded_of_bound evaluable.bound
  obtain ⟨body, last, ran, code⟩ := Writes.exists_ok
    (fun ordinal => @Translation.writes ordinal plan translation clause id)
    (fun _ => isSome_clause evaluable.simple grounded evaluable.declared) draft
  refine ⟨body, last, ran, fun state known shaped args => ?_⟩
  have isCode := code _ ((Symbols.agrees_ordinal state.symbols).of_extends known)
  have noBook := auxiliary_of_seminaive strategy
  have represents : Represents plan.program plan.auxiliary (fun _ _ => True) state.store (rowsIn state.store) :=
    noBook ▸ shaped.represents
  have separate := separate_of_distinct distinct evaluable.declared others
  have follows : Follows (fun _ _ => True) clause (translation.version clause) :=
    ⟨trivial, trivial, fun _ _ _ => trivial, fun _ _ => trivial⟩
  have isHead := (evaluable.declared _ clause.head_mem_atoms).1
  obtain ⟨final, queried, runs⟩ := returns_queried evaluable.simple
    (fun fact => by rw [evaluable.rule] at fact; cases fact) separate
    (represents.shapedAtoms evaluable.declared follows) (represents.headShaped evaluable.declared follows) isCode
  have after := represents.queried distinct evaluable.simple grounded evaluable.declared separate follows queried
  rw [noBook] at after
  refine ⟨final, fun row => ?_, fun other apart => ?_, fun rounds => runs rounds state rfl⟩
  · have rows := after.rows_eq (translation.version clause).part isHead trivial
    rw [Contents.set_same] at rows
    exact Set.ext_iff.1 rows row
  · exact queried.others other (Version.target_eq _ _ ▸ apart)

/-- The rows that a clause derives from a store, where every atom reads the relation's own table. -/
def consequences (clause : Clause) (state : State) : Set Row :=
  {row | clause.Derives state.symbols.ordinal (fun _ => rowsIn state.store .full) (rowsIn state.store .full) row}

/-- The rows that the relation of the head does not have, and that a clause derives where the atom at a position reads
the rows of the previous round. -/
def newConsequences (clause : Clause) (position : Nat) (state : State) : Set Row :=
  {row | row ∉ state.store.rows clause.head.relation.text ∧
    clause.Derives state.symbols.ordinal (atPosition (rowsIn state.store .full) (rowsIn state.store .delta) position)
      (rowsIn state.store .full) row}

/-- The query over complete relations is lowered, and adds the consequences of the clause to the head's relation. -/
def InsertsConsequences (plan : Plan) (clause : Clause) (id : Nat) (draft : Draft) : Prop :=
  ∃ body last, outcome (lowerComplete plan clause id .insertion) draft = (.ok body, last) ∧
    ∀ state : State, state.symbols.Extends last.symbols → HasShape plan.program state.store →
      Adds body.tree state clause.head.relation.text (consequences clause state)

/-- A version for a loop is lowered, and adds the new consequences of the clause to the rows kept apart. -/
def FindsConsequences (plan : Plan) (clause : Clause) (id : Nat) (stratum : List Name) (version position : Nat)
    (draft : Draft) : Prop :=
  ∃ body last, outcome (lowerIncremental plan clause id stratum version .insertion) draft = (.ok body, last) ∧
    ∀ state : State, state.symbols.Extends last.symbols → HasShape plan.program state.store →
      Adds body.tree state (freshName clause.head.relation) (newConsequences clause position state)

/-- The queries of a rule insert its consequences and nothing else: over complete relations, if the head's relation is
not in the body, and in every version for a loop. -/
theorem query_inserts_consequences (distinct : (tableNames plan.program).Nodup) (strategy : plan.strategy = .seminaive)
    (evaluable : clause.Evaluable plan.program) (id : Nat) (draft : Draft) :
    (Clause.ReadsOthers clause → InsertsConsequences plan clause id draft) ∧
      ∀ (stratum : List Name) (version : Nat) (inside : version < (positionsWithin clause stratum).length),
        FindsConsequences plan clause id stratum version (positionsWithin clause stratum)[version] draft := by
  constructor
  · intro others
    obtain ⟨body, last, ran, adds⟩ :=
      exists_adding distinct strategy evaluable .complete (fun _ => others) id draft
    refine ⟨body, last, ran, fun state known shaped => ?_⟩
    have isAdded : Version.complete.adds state.symbols.ordinal clause (rowsIn state.store) =
        consequences clause state := by
      ext row
      constructor
      · exact fun added => added.2
      · exact fun derives => ⟨fun incremental => absurd incremental Bool.false_ne_true, derives⟩
    exact isAdded ▸ adds state known shaped
  · intro stratum version inside
    obtain ⟨body, last, ran, adds⟩ := exists_adding distinct strategy evaluable (.incremental stratum version)
      (fun plain => absurd plain Bool.true_eq_false_eq_False) id draft
    refine ⟨body, last, ran, fun state known shaped => ?_⟩
    have isAdded (position : Nat) :
        (Version.incremental (some position)).adds state.symbols.ordinal clause (rowsIn state.store) =
          newConsequences clause position state := by
      ext row
      rw [Version.adds, Version.reads_incremental]
      constructor
      · exact fun added => ⟨added.1 rfl, added.2⟩
      · exact fun added => ⟨fun _ => added.1, added.2⟩
    have added := adds state known shaped
    rw [Translation.version, List.getElem?_eq_getElem inside, isAdded] at added
    exact added

theorem evaluable_reachability : ∀ clause ∈ reachability.clauses, clause.Evaluable reachability := by
  have rules : ∀ clause ∈ reachability.clauses, clause.isFact = false := by decide
  have bound : ∀ clause ∈ reachability.clauses, clause.Bound := by
    unfold Clause.Bound
    decide +kernel
  intro clause member
  exact ⟨rules clause member, (flat_reachability clause member).simple, bound clause member,
    regular_reachability.declared clause member⟩

/-- Paths start with edges, and the version of the other rule prolongs the paths of the previous round. -/
theorem query_inserts_consequences_reachability :
    ∃ plan start longer, Plan.of reachability .seminaive false = .ok plan ∧ plan.program.clauses = [start, longer] ∧
      Clause.ReadsOthers start ∧ positionsWithin longer [⟨["path"]⟩] = [0] ∧
      InsertsConsequences plan start 0 .empty ∧ FindsConsequences plan longer 1 [⟨["path"]⟩] 0 0 .empty := by
  obtain ⟨plan, planned, isProgram, strategy⟩ : ∃ plan, Plan.of reachability .seminaive false = .ok plan ∧
      plan.program = reachability ∧ plan.strategy = .seminaive := ⟨_, rfl, rfl, rfl⟩
  have distinct : (tableNames plan.program).Nodup := isProgram ▸ regular_reachability.distinct
  obtain ⟨start, longer, clauses, others, position⟩ : ∃ start longer, reachability.clauses = [start, longer] ∧
      Clause.ReadsOthers start ∧ positionsWithin longer [⟨["path"]⟩] = [0] := by
    refine ⟨_, _, rfl, ?_, by decide⟩
    intro atom member
    simp [Clause.positiveAtoms, Clause.negatedAtoms, Literal.positiveAtom?, Literal.negatedAtom?] at member
    rw [member]
    decide
  have evaluable (clause : Clause) (member : clause ∈ [start, longer]) : clause.Evaluable plan.program :=
    isProgram ▸ evaluable_reachability clause (clauses ▸ member)
  have inserts := (query_inserts_consequences distinct strategy (evaluable start (by simp)) 0 .empty).1 others
  have finds := (query_inserts_consequences distinct strategy (evaluable longer (by simp)) 1 .empty).2
    [⟨["path"]⟩] 0 (by rw [position]; decide)
  simp only [position] at finds
  exact ⟨plan, start, longer, planned, isProgram ▸ clauses, others, position, inserts, finds⟩

end Lowering

end DatalogRam
