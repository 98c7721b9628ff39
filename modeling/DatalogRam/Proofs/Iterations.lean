import DatalogRam.Proofs.Evaluation.Laps
import DatalogRam.Proofs.LeastModel
import DatalogRam.Proofs.Lowering.Coverage
import DatalogRam.Proofs.Lowering.StoreChanges

/-!
# The loop of a stratum makes naive rounds

Under semi-naive evaluation the step of a recursive stratum has one loop. After any number of completed laps of its
body the relations of the stratum have the rows that naive evaluation knows after as many rounds, and in the first round
that adds nothing the loop is left. The other strata of the program need not be stratified.
-/

namespace DatalogRam

open Analysis Lowering Machine Ram

/-! ## The loop -/

namespace Ram

mutual

/-- The bodies of the loops of a statement, in order. -/
def Stmt.loops : Stmt → List Stmt
  | .sequence statements => Stmt.loopsOfAll statements
  | .loop body => [body]
  | .debug _ statement => statement.loops
  | .query _ | .exit _ | .clear _ | .swap .. | .merge .. => []

def Stmt.loopsOfAll : List Stmt → List Stmt
  | [] => []
  | statement :: statements => statement.loops ++ Stmt.loopsOfAll statements

end

theorem Stmt.loopsOfAll_eq_flatMap (statements : List Stmt) :
    Stmt.loopsOfAll statements = statements.flatMap Stmt.loops := by
  induction statements with
  | nil => rfl
  | cons statement statements ih => rw [Stmt.loopsOfAll, ih, List.flatMap_cons]

theorem Stmt.loopsOfAll_append (first second : List Stmt) :
    Stmt.loopsOfAll (first ++ second) = Stmt.loopsOfAll first ++ Stmt.loopsOfAll second := by
  simp only [Stmt.loopsOfAll_eq_flatMap, List.flatMap_append]

theorem Stmt.loopsOfAll_eq_nil {statements : List Stmt} (none : ∀ statement ∈ statements, statement.loops = []) :
    Stmt.loopsOfAll statements = [] := by
  rw [Stmt.loopsOfAll_eq_flatMap]
  exact List.flatMap_eq_nil_iff.2 none

theorem Stmt.IsManagement.loops {statement : Stmt} (manages : statement.IsManagement) : statement.loops = [] := by
  cases statement with
  | clear | swap | merge => rfl
  | _ => cases manages

end Ram

namespace Lowering

variable {ordinal : String → Int64} {plan : Plan} {stratum : Stratum} {statement : Stmt}

theorem loops_of_codes {queries : List Query} {statements : List Stmt}
    (codes : queries.mapM (Query.code ordinal plan) = some statements) : Stmt.loopsOfAll statements = [] := by
  refine Stmt.loopsOfAll_eq_nil fun statement member => ?_
  obtain ⟨query, _, code⟩ := mem_of_mapM codes member
  obtain ⟨operation, rfl⟩ := exists_query_of_clauseCode code
  rw [withText]
  split <;> rfl

/-- A recursive stratum has one loop. -/
theorem loops_of_stratumCode (recursive : stratum.recursive = true)
    (code : stratumCode ordinal plan stratum = some statement) :
    ∃ queries, (roundQueries plan stratum.relations).mapM (Query.code ordinal plan) = some queries.flatten ∧
      statement.loops = [roundCode stratum.relations queries] ∧
      Allows (EvaluationChange stratum.relations) (roundCode stratum.relations queries) := by
  have allows := allows_stratumCode code
  obtain ⟨once, areOnce, shape⟩ := stratumCode_eq_some code
  rw [if_pos recursive] at shape
  obtain ⟨queries, areQueries, rfl⟩ := shape
  refine ⟨queries, areQueries, ?_, ?_⟩
  · have seeds : Stmt.loopsOfAll (stratum.relations.map seedCode) = [] :=
      Stmt.loopsOfAll_eq_nil fun seed member => (management_seeds stratum.relations seed member).loops
    have clears : Stmt.loopsOfAll (stratum.relations.map clearRoundsCode).flatten = [] :=
      Stmt.loopsOfAll_eq_nil fun clear member =>
        (management_parts management_clears stratum.relations clear member).loops
    rw [Stmt.loops, repeatedCode, Stmt.loopsOfAll_append, Stmt.loopsOfAll_append, Stmt.loopsOfAll_append,
      loops_of_codes areOnce, seeds, clears]
    rfl
  · refine (allAllow_iff.1 allows) (.loop (roundCode stratum.relations queries)) ?_
    simp [repeatedCode]

/-- The step of a recursive stratum in a lowered program has one loop. -/
theorem loop_of_lowered {program : Program} {debugInfo : Bool} {compiled : Ram.Program} {position : Nat}
    (lowered : (lowerProgram program .seminaive debugInfo).result = .ok compiled)
    (found : (strata program)[position]? = some stratum) (recursive : stratum.recursive = true) :
    ∃ plan steps step queries, Plan.of program .seminaive debugInfo = .ok plan ∧
      compiled.main.tree = .sequence steps ∧ steps[position]? = some step ∧
      step.loops = [roundCode stratum.relations queries] ∧
      (roundQueries plan stratum.relations).mapM (Query.code compiled.symbols.ordinal plan) = some queries.flatten ∧
      Allows (EvaluationChange stratum.relations) (roundCode stratum.relations queries) := by
  obtain ⟨plan, planned, code⟩ := evaluationCode_of_lowered lowered (Symbols.agrees_ordinal compiled.symbols)
  obtain ⟨scheduled, rfl, strategy⟩ := scheduled_of planned
  obtain ⟨steps, main, _, ofStratum⟩ := evaluationCode_eq_some code
  obtain ⟨evaluation, isEvaluation, isStep⟩ := ofStratum position stratum (scheduled.strata ▸ found)
  obtain ⟨queries, areQueries, loops, allows⟩ := loops_of_stratumCode recursive isEvaluation
  refine ⟨plan, steps, _, queries, planned, main, isStep, ?_, areQueries, allows⟩
  have clears : (clearExpiredCode plan.strategy (plan.expirations[position]?.getD [])).loops = [] := by
    rw [strategy]
    refine Stmt.loopsOfAll_eq_nil fun clear member => ?_
    obtain ⟨name, _, rfl⟩ := List.mem_map.1 member
    rfl
  rw [Stmt.loops, Stmt.loopsOfAll, Stmt.loopsOfAll, Stmt.loopsOfAll, loops, clears]
  rfl

end Lowering

/-! ## Naive rounds on stores -/

/-- The clauses of some relations that read one of them in a positive atom. -/
def recursiveClauses (program : Program) (names : List Name) : List Clause :=
  program.clauses.filter fun clause =>
    names.contains clause.head.relation && clause.positiveAtoms.any fun atom => names.contains atom.relation

/-- What naive evaluation of some relations knows after some rounds on the rows of a store. -/
def iterate (ordinal : String → Int64) (program : Program) (names : List Name) (store : Store) : Nat → Facts :=
  Component.naive ordinal (recursiveClauses program names) (storedFacts program store)

/-- A store on which the rounds of some relations can start: all of their rows are those of the previous round. -/
structure Ready (program : Program) (names : List Name) (store : Store) : Prop where
  shaped : ∀ name ∈ program.relationNames, ∀ row ∈ store.rows name.text, row.length = arityOf program name
  delta : ∀ name ∈ names, ∀ row, row ∈ store.rows (deltaName name) ↔ row ∈ store.rows name.text
  fresh : ∀ name ∈ names, ∀ row, row ∉ store.rows (freshName name)

/-- A store after some naive rounds of some relations. -/
structure Iterated (ordinal : String → Int64) (program : Program) (names : List Name) (start : Store) (count : Nat)
    (store : Store) : Prop where
  full : ∀ name ∈ names, {row | row ∈ store.rows name.text} = iterate ordinal program names start count name
  delta : 0 < count → ∀ name ∈ names, {row | row ∈ store.rows (deltaName name)} =
    iterate ordinal program names start count name \ iterate ordinal program names start (count - 1) name
  fresh : ∀ name ∈ names, ∀ row, row ∉ store.rows (freshName name)
  others : ∀ table, (∀ name ∈ names, table ∉ tablesOf name) → store.rows table = start.rows table

/-- The laps of a loop with a given body are the naive rounds of some relations, and the loop is left in the first
round that adds nothing. -/
structure Iterates (ordinal : String → Int64) (program : Program) (names : List Name) (body : Stmt) (rounds : Nat)
    (args : Row) (start : State) : Prop where
  after : ∀ count last, Laps (runStmt rounds args body) start count last →
    Iterated ordinal program names start.store count last.store
  exits : ∀ count last, Laps (runStmt rounds args body) start count last →
    iterate ordinal program names start.store (count + 1) = iterate ordinal program names start.store count →
      ∃ final, Returns (runStmt rounds args body) last .exit final ∧
        Iterated ordinal program names start.store count final.store
  proceeds : ∀ count last, Laps (runStmt rounds args body) start count last →
    iterate ordinal program names start.store (count + 1) ≠ iterate ordinal program names start.store count →
      ∃ final, Returns (runStmt rounds args body) last .proceed final
  ends : ∃ count,
    iterate ordinal program names start.store (count + 1) = iterate ordinal program names start.store count ∧
      (∀ earlier < count,
        iterate ordinal program names start.store (earlier + 1) ≠ iterate ordinal program names start.store earlier) ∧
      (∃ last, Laps (runStmt rounds args body) start count last) ∧
      (count < rounds → ∃ final, Returns (runStmt rounds args (.loop body)) start .proceed final ∧
        Iterated ordinal program names start.store count final.store)

section Rounds

variable {program : Program} {stratum : Stratum} {position : Nat} {ordinal : String → Int64}

theorem mem_recursiveClauses {names : List Name} {clause : Clause} :
    clause ∈ recursiveClauses program names ↔ clause ∈ program.clauses ∧ clause.head.relation ∈ names ∧
      ∃ atom ∈ clause.positiveAtoms, atom.relation ∈ names := by
  simp only [recursiveClauses, List.mem_filter, Bool.and_eq_true, List.contains_iff_mem, List.any_eq_true]

/-- The tables that the rounds of some relations use. -/
def InRounds (names : List Name) (part : Part) (name : Name) : Prop :=
  part = .full ∨ name ∈ names

theorem followed_inRounds : Followed program stratum (InRounds stratum.relations) where
  own := fun _ _ member => .inr member
  read := fun _ _ _ _ _ => .inl rfl

/-- The naive rounds of a stratum are those of its component. -/
theorem iterate_eq (regular : program.RegularIn stratum) (noEquivalence : program.NoEquivalence)
    (found : (strata program)[position]? = some stratum) (store : Store) (count : Nat) :
    iterate ordinal program stratum.relations store count =
      Component.naive ordinal (componentOf program stratum).recursive (storedFacts program store) count :=
  Component.naive_congr
    (fun _ => mem_recursiveClauses.trans (mem_recursive_iff regular noEquivalence found).symm) count

variable {plan : Plan} {queries : List (List Stmt)} {start store : Store} {count : Nat}

theorem Ready.shapedRounds {names : List Name} (ready : Ready program names store) (part : Part) {name : Name}
    (declared : name ∈ program.relationNames) (isTracked : InRounds names part name) :
    ∀ row ∈ store.rows (part.table name), row.length = arityOf program name := by
  intro row member
  cases part with
  | full => exact ready.shaped name declared row member
  | delta =>
      have inside : name ∈ names := isTracked.resolve_left (by decide)
      exact ready.shaped name declared row ((ready.delta name inside row).1 member)
  | fresh =>
      have inside : name ∈ names := isTracked.resolve_left (by decide)
      exact absurd member (ready.fresh name inside row)

theorem Ready.afterRounds (ready : Ready plan.program stratum.relations store) (none : plan.auxiliary = 0) :
    AfterRounds ordinal plan stratum (InRounds stratum.relations) (storedFacts plan.program store) 0 store := by
  change Represents plan.program plan.auxiliary _ store _
  rw [none]
  refine ⟨fun part _ => ready.shapedRounds part, fun part name declared isTracked => ?_⟩
  rw [content_of_shaped (ready.shapedRounds part declared isTracked)]
  ext row
  cases part with
  | full => exact (and_iff_right declared).symm
  | delta =>
      have inside : name ∈ stratum.relations := isTracked.resolve_left (by decide)
      rw [Set.mem_ofPred_eq, Part.table, ready.delta name inside row]
      exact ⟨fun member => ⟨inside, declared, member⟩, fun member => member.2.2⟩
  | fresh =>
      have inside : name ∈ stratum.relations := isTracked.resolve_left (by decide)
      exact iff_of_false (ready.fresh name inside row) (Set.notMem_empty row)

theorem iterated_of_afterRounds (regular : plan.program.RegularIn stratum) (noEquivalence : plan.program.NoEquivalence)
    (found : (strata plan.program)[position]? = some stratum) (none : plan.auxiliary = 0)
    (isAfter : AfterRounds ordinal plan stratum (InRounds stratum.relations) (storedFacts plan.program start) count
      store)
    (others : ∀ table, (∀ name ∈ stratum.relations, table ∉ tablesOf name) → store.rows table = start.rows table) :
    Iterated ordinal plan.program stratum.relations start count store := by
  have proper := proper_componentOf regular noEquivalence found
  have declared := declared_of_stratum found
  change Represents plan.program plan.auxiliary (InRounds stratum.relations) store _ at isAfter
  rw [none] at isAfter
  constructor
  · intro name inside
    rw [iterate_eq regular noEquivalence found,
      ← (@Component.progress_rounds ordinal _ (storedFacts plan.program start) proper count).1]
    exact isAfter.rows_eq .full (declared name inside) (.inl rfl)
  · intro positive name inside
    obtain ⟨before, rfl⟩ : ∃ before, count = before + 1 := ⟨count - 1, by omega⟩
    rw [iterate_eq regular noEquivalence found, iterate_eq regular noEquivalence found, Nat.add_sub_cancel,
      ← Component.rounds_delta proper before name]
    exact isAfter.rows_eq .delta (declared name inside) (.inr inside)
  · intro name inside row member
    have rows : {row | row ∈ store.rows (freshName name)} = ∅ :=
      isAfter.rows_eq .fresh (declared name inside) (.inr inside)
    exact Set.eq_empty_iff_forall_notMem.1 rows row member
  · exact others

/-- Runs of the body change no other tables than those of the stratum. -/
theorem rows_of_body {body : Stmt} (allows : Allows (EvaluationChange stratum.relations) body) {table : String}
    (outside : ∀ name ∈ stratum.relations, table ∉ tablesOf name) {rounds : Nat} {args : Row} {flow : Flow}
    {state last : State} (returns : Returns (runStmt rounds args body) state flow last) :
    last.store.rows table = state.store.rows table := by
  have apart : Allows (fun change => table ∉ change.tables) body := by
    refine Allows.mono (fun change isChange inside => ?_) _ allows
    obtain ⟨name, member, isTable⟩ := isChange.tables inside
    exact outside name member isTable
  have kept := rows_of_allows apart rounds args state
  rwa [returns] at kept

theorem rows_of_laps {body : Stmt} (allows : Allows (EvaluationChange stratum.relations) body) {table : String}
    (outside : ∀ name ∈ stratum.relations, table ∉ tablesOf name) {rounds count : Nat} {args : Row}
    {start last : State} (laps : Laps (runStmt rounds args body) start count last) :
    last.store.rows table = start.store.rows table := by
  induction laps with
  | none => rfl
  | next _ returns ih => exact (rows_of_body allows outside returns).trans ih

section Body

variable {body : Stmt} {rounds : Nat} {args : Row} {start last : State}
variable (regular : plan.program.RegularIn stratum) (noEquivalence : plan.program.NoEquivalence)
  (found : (strata plan.program)[position]? = some stratum) (none : plan.auxiliary = 0)
  (codes : (roundQueries plan stratum.relations).mapM (Query.code ordinal plan) = some queries.flatten)
  (isBody : body = roundCode stratum.relations queries)
  (allows : Allows (EvaluationChange stratum.relations) body)
  (ready : Ready plan.program stratum.relations start.store)

include regular noEquivalence found none codes isBody ready

theorem afterRounds_of_ready (laps : Laps (runStmt rounds args body) start count last) :
    AfterRounds ordinal plan stratum (InRounds stratum.relations) (storedFacts plan.program start.store) count
      last.store := by
  subst isBody
  exact afterRounds_of_laps regular noEquivalence found followed_inRounds codes (ready.afterRounds none) laps

/-- If the naive round adds something, its lap comes to its end. -/
theorem proceeds_of_ready (laps : Laps (runStmt rounds args body) start count last)
    (unstable : iterate ordinal plan.program stratum.relations start.store (count + 1) ≠
      iterate ordinal plan.program stratum.relations start.store count) :
    ∃ final, Returns (runStmt rounds args body) last .proceed final := by
  have isLast := afterRounds_of_ready regular noEquivalence found none codes isBody ready laps
  rw [iterate_eq regular noEquivalence found, iterate_eq regular noEquivalence found] at unstable
  obtain ⟨_, _, leads⟩ := (leads_lap regular noEquivalence found followed_inRounds codes args isLast).2 unstable
  obtain ⟨_, ran⟩ := leads rounds last rfl
  exact ⟨_, isBody ▸ ran⟩

include allows

/-- If the naive round adds nothing, the loop is left, and its relations stay as they are. -/
theorem exits_of_ready (laps : Laps (runStmt rounds args body) start count last)
    (stable : iterate ordinal plan.program stratum.relations start.store (count + 1) =
      iterate ordinal plan.program stratum.relations start.store count) :
    ∃ final, Returns (runStmt rounds args body) last .exit final ∧
      Iterated ordinal plan.program stratum.relations start.store count final.store := by
  have isLast := afterRounds_of_ready regular noEquivalence found none codes isBody ready laps
  rw [iterate_eq regular noEquivalence found, iterate_eq regular noEquivalence found] at stable
  obtain ⟨_, isFinal, leads⟩ := (leads_lap regular noEquivalence found followed_inRounds codes args isLast).1 stable
  obtain ⟨bindings, leaves⟩ := leads rounds last rfl
  have ran : Returns (runStmt rounds args body) last .exit _ := isBody ▸ leaves
  exact ⟨_, ran, iterated_of_afterRounds regular noEquivalence found none isFinal fun _ outside =>
    (rows_of_body allows outside ran).trans (rows_of_laps allows outside laps)⟩

/-- As words are finitely many, some naive round is the first one that adds nothing, and the loop ends with it. -/
theorem ends_of_ready :
    ∃ count,
      iterate ordinal plan.program stratum.relations start.store (count + 1) =
          iterate ordinal plan.program stratum.relations start.store count ∧
        (∀ earlier < count, iterate ordinal plan.program stratum.relations start.store (earlier + 1) ≠
          iterate ordinal plan.program stratum.relations start.store earlier) ∧
        (∃ last, Laps (runStmt rounds args body) start count last) ∧
        (count < rounds → ∃ final, Returns (runStmt rounds args (.loop body)) start .proceed final ∧
          Iterated ordinal plan.program stratum.relations start.store count final.store) := by
  have arities : ∀ clause ∈ (componentOf plan.program stratum).recursive,
      clause.head.args.length = arityOf plan.program clause.head.relation := by
    intro clause member
    obtain ⟨isClause, inside, _⟩ := mem_componentOf.1 member
    exact (regular.declared clause isClause inside _ clause.head_mem_atoms).2
  obtain ⟨count, stable, unstable⟩ := @Component.exists_stable ordinal _ (storedFacts plan.program start.store) _
    (proper_componentOf regular noEquivalence found) arities
  have exists_last : ∃ last, Laps (runStmt rounds args body) start count last := by
    subst isBody
    exact exists_laps regular noEquivalence found followed_inRounds codes (ready.afterRounds none) unstable
  obtain ⟨last, laps⟩ := exists_last
  simp only [← iterate_eq regular noEquivalence found] at stable unstable
  refine ⟨count, stable, unstable, ⟨last, laps⟩, fun enough => ?_⟩
  obtain ⟨final, leaves, iterated⟩ :=
    exits_of_ready regular noEquivalence found none codes isBody allows ready laps stable
  refine ⟨final, ?_, iterated⟩
  obtain ⟨more, rfl⟩ : ∃ more, rounds = count + (more + 1) := ⟨rounds - count - 1, by omega⟩
  rw [runStmt]
  apply laps.repeatBody
  rw [repeatBody]
  exact leaves.bind (Returns.pure _ _)

theorem iterates_of_ready : Iterates ordinal plan.program stratum.relations body rounds args start where
  after := fun _ _ laps =>
    iterated_of_afterRounds regular noEquivalence found none
      (afterRounds_of_ready regular noEquivalence found none codes isBody ready laps)
      fun _ outside => rows_of_laps allows outside laps
  exits := fun _ _ => exits_of_ready regular noEquivalence found none codes isBody allows ready
  proceeds := fun _ _ => proceeds_of_ready regular noEquivalence found none codes isBody ready
  ends := ends_of_ready regular noEquivalence found none codes isBody allows ready

end Body

end Rounds

/-- The step of a recursive stratum whose relations do not negate each other has one loop, and from every store on which
the rounds can start its laps are the naive rounds. Of the negations of other strata nothing is asked. -/
theorem loop_iterates {program : Program} {debugInfo : Bool} {compiled : Ram.Program} {stratum : Stratum}
    {position : Nat} (distinct : (tableNames program).Nodup) (noEquivalence : program.NoEquivalence)
    (simple : ∀ clause ∈ program.clauses, clause.Simple)
    (declared : ∀ clause ∈ program.clauses, Lowering.Clause.Declared program clause)
    (lowered : (lowerProgram program .seminaive debugInfo).result = .ok compiled)
    (found : (strata program)[position]? = some stratum) (recursive : stratum.recursive = true)
    (unnegated : ∀ clause ∈ program.clauses, clause.head.relation ∈ stratum.relations →
      ∀ atom ∈ clause.negatedAtoms, atom.relation ∉ stratum.relations) :
    ∃ steps step body, compiled.main.tree = .sequence steps ∧ steps[position]? = some step ∧ step.loops = [body] ∧
      ∀ (start : State) (rounds : Nat) (args : Row), Ready program stratum.relations start.store →
        Iterates compiled.symbols.ordinal program stratum.relations body rounds args start := by
  obtain ⟨plan, steps, step, queries, planned, main, isStep, loops, codes, allows⟩ :=
    loop_of_lowered lowered found recursive
  obtain ⟨scheduled, rfl, strategy⟩ := scheduled_of planned
  have none : plan.auxiliary = 0 := by
    rw [Plan.auxiliary, strategy]
    rfl
  have regular : plan.program.RegularIn stratum :=
    ⟨distinct, fun clause isClause _ => simple clause isClause, fun clause isClause _ => declared clause isClause,
      unnegated⟩
  exact ⟨steps, step, _, main, isStep, loops, fun start rounds args ready =>
    iterates_of_ready regular noEquivalence found none codes rfl allows ready⟩

theorem sorted_shortPaths : ([[1, 2], [2, 3]] : List Row).Pairwise (· < ·) := by
  decide

/-- The edges are the paths known so far, and all of them were found in the previous round. -/
def shortPaths : Store :=
  (edges.put "path" ⟨[[1, 2], [2, 3]], sorted_shortPaths⟩).put "@delta_path" ⟨[[1, 2], [2, 3]], sorted_shortPaths⟩

theorem ready_shortPaths : Ready reachability [⟨["path"]⟩] shortPaths where
  shaped := by
    have two : ∀ name ∈ reachability.relationNames, arityOf reachability name = 2 := by decide
    have pairs : ∀ name ∈ reachability.relationNames, ∀ row ∈ (shortPaths.rows name.text).toList, row.length = 2 := by
      decide +kernel
    intro name declared row member
    rw [two name declared]
    exact pairs name declared row member
  delta := by
    intro name member row
    obtain rfl := List.mem_singleton.1 member
    have same : (shortPaths.rows "@delta_path").toList = (shortPaths.rows "path").toList := by decide +kernel
    rw [Rows.mem_def, Rows.mem_def]
    exact Iff.of_eq (congrArg (row ∈ ·) same)
  fresh := by
    intro name member row isRow
    obtain rfl := List.mem_singleton.1 member
    have none : (shortPaths.rows "@new_path").toList = [] := by decide +kernel
    exact List.not_mem_nil (none ▸ isRow : row ∈ ([] : List Row))

theorem loop_iterates_reachability :
    (tableNames reachability).Nodup ∧ reachability.NoEquivalence ∧
      (∀ clause ∈ reachability.clauses, clause.Simple) ∧
      (∀ clause ∈ reachability.clauses, Lowering.Clause.Declared reachability clause) ∧
      (strata reachability)[1]? = some ⟨[⟨["path"]⟩], true, [0]⟩ ∧
      (∀ clause ∈ reachability.clauses, clause.negatedAtoms = []) ∧
      Ready reachability [⟨["path"]⟩] shortPaths ∧
      ∃ compiled, (lowerProgram reachability .seminaive false).result = .ok compiled ∧
        ∃ steps step body, compiled.main.tree = .sequence steps ∧ steps[1]? = some step ∧ step.loops = [body] ∧
          ∀ (rounds : Nat) (args : Row), Iterates compiled.symbols.ordinal reachability [⟨["path"]⟩] body rounds args
            (.start compiled shortPaths) := by
  have found : (strata reachability)[1]? = some ⟨[⟨["path"]⟩], true, [0]⟩ := by decide +kernel
  have unnegated : ∀ clause ∈ reachability.clauses, clause.negatedAtoms = [] := by decide
  obtain ⟨compiled, lowered⟩ := exists_result (show (lowerProgram reachability .seminaive false).result.isOk by
    decide +kernel)
  obtain ⟨steps, step, body, main, isStep, loops, iterates⟩ :=
    loop_iterates regular_reachability.distinct plain_reachability.noEquivalence regular_reachability.simple
      regular_reachability.declared lowered found rfl fun clause isClause _ atom isNegated => by
        rw [unnegated clause isClause] at isNegated
        cases isNegated
  exact ⟨regular_reachability.distinct, plain_reachability.noEquivalence, regular_reachability.simple,
    regular_reachability.declared, found, unnegated, ready_shortPaths, compiled, lowered, steps, step, body, main,
    isStep, loops, fun rounds args => iterates (.start compiled shortPaths) rounds args ready_shortPaths⟩

end DatalogRam
