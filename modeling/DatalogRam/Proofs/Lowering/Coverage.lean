import DatalogRam.Proofs.Analysis.Dependencies
import DatalogRam.Proofs.Lowering.Programs
import DatalogRam.Proofs.Lowering.StratumQueries

/-!
# Every clause is evaluated

A clause whose head is declared has its queries in the step of the head's stratum: one outside of the loop if the
clause is not recursive, and otherwise one in the loop for each positive body atom of the stratum. Without
attributes typed by equivalence relations a recursive clause has such an atom, and its stratum has a loop. With
them the analysis of recursion follows edges that the strata do not know of, and a clause can be left out.
-/

namespace DatalogRam

open Ram Analysis

namespace Ram

mutual

/-- The queries of a statement outside of its loops, in order. -/
def Stmt.queries : Stmt → List Op
  | .sequence statements => Stmt.queriesOfAll statements
  | .query operation => [operation]
  | .debug _ statement => statement.queries
  | .loop _ | .exit _ | .clear _ | .swap .. | .merge .. => []

def Stmt.queriesOfAll : List Stmt → List Op
  | [] => []
  | statement :: statements => statement.queries ++ Stmt.queriesOfAll statements

end

mutual

/-- The queries of the loops of a statement, in order. -/
def Stmt.loopQueries : Stmt → List Op
  | .sequence statements => Stmt.loopQueriesOfAll statements
  | .loop body => body.queries ++ body.loopQueries
  | .debug _ statement => statement.loopQueries
  | .query _ | .exit _ | .clear _ | .swap .. | .merge .. => []

def Stmt.loopQueriesOfAll : List Stmt → List Op
  | [] => []
  | statement :: statements => statement.loopQueries ++ Stmt.loopQueriesOfAll statements

end

@[simp] theorem Stmt.queriesOfAll_append (first second : List Stmt) :
    Stmt.queriesOfAll (first ++ second) = Stmt.queriesOfAll first ++ Stmt.queriesOfAll second := by
  induction first with
  | nil => rfl
  | cons statement first ih => simp [Stmt.queriesOfAll, ih]

@[simp] theorem Stmt.loopQueriesOfAll_append (first second : List Stmt) :
    Stmt.loopQueriesOfAll (first ++ second) = Stmt.loopQueriesOfAll first ++ Stmt.loopQueriesOfAll second := by
  induction first with
  | nil => rfl
  | cons statement first ih => simp [Stmt.loopQueriesOfAll, ih]

/-- Statements that manage tables have no queries. -/
def Stmt.IsManagement : Stmt → Prop
  | .clear _ | .swap .. | .merge .. => True
  | _ => False

theorem Stmt.queriesOfAll_management {statements : List Stmt} (all : ∀ statement ∈ statements, statement.IsManagement) :
    Stmt.queriesOfAll statements = [] ∧ Stmt.loopQueriesOfAll statements = [] := by
  induction statements with
  | nil => exact ⟨rfl, rfl⟩
  | cons statement statements ih =>
      obtain ⟨rest, restLoops⟩ := ih fun other member => all other (List.mem_cons_of_mem _ member)
      have first := all statement List.mem_cons_self
      cases statement <;> simp_all [Stmt.IsManagement, Stmt.queriesOfAll, Stmt.loopQueriesOfAll, Stmt.queries,
        Stmt.loopQueries]

end Ram

namespace Lowering

/-- Operations that are the queries of clauses, one each and in this order. -/
def AreQueries (ordinal : String → Int64) (plan : Plan) (operations : List Op) (queries : List Query) : Prop :=
  List.Forall₂
    (fun operation query => ∃ statement, query.code ordinal plan = some statement ∧ statement.queries = [operation])
    operations queries

/-- The queries of a list that are versions of the clause at a position of the program. -/
def versionsOf (id : Nat) (queries : List Query) : List Query :=
  queries.filter fun query => query.id = id

/-- The positions of the positive body atoms of a clause whose relations are in the stratum of its head. -/
def ownPositions (program : Program) (clause : Clause) : List Nat :=
  (clause.positiveAtoms.zipIdx.filter fun entry =>
    stratumOf? (strata program) entry.1.relation = stratumOf? (strata program) clause.head.relation).map (·.2)

/-- The queries of a statement come from clauses, and they come from a given clause as its kind demands: one
outside of the loop, or one in the loop for each body atom of the stratum. -/
structure Evaluates (ordinal : String → Int64) (plan : Plan) (statement : Stmt) (clause : Clause) (id : Nat)
    (once repeated : List Query) : Prop where
  outside : AreQueries ordinal plan statement.queries once
  inside : AreQueries ordinal plan statement.loopQueries repeated
  ofComplete : isRecursive plan.program clause = false →
    versionsOf id once = [⟨clause, id, .complete⟩] ∧ versionsOf id repeated = []
  ofRecursive : isRecursive plan.program clause = true →
    versionsOf id once = [] ∧ ownPositions plan.program clause ≠ [] ∧
      versionsOf id repeated = (ownPositions plan.program clause).map fun position =>
        ⟨clause, id, .incremental (some position)⟩

/-- The main statement of a program has the given steps, one for each stratum. Under provenance statements that
fill the info relations follow. -/
def HasSteps (strategy : Strategy) (main : Stmt) (steps : List Stmt) : Prop :=
  match strategy with
  | .seminaive => main = .sequence steps
  | .provenance => ∃ infos, main = .sequence [.sequence steps, infos]

variable {ordinal : String → Int64} {plan : Plan}

/-- The code of a clause is one query. -/
theorem queries_of_clauseCode {clause : Clause} {id : Nat} {version : Version} {statement : Stmt}
    (code : clauseCode ordinal plan clause id version = some statement) :
    ∃ operation, statement.queries = [operation] ∧ statement.loopQueries = [] := by
  obtain ⟨operation, rfl⟩ := exists_query_of_clauseCode code
  rw [withText]
  split <;> exact ⟨operation, rfl, rfl⟩

theorem areQueries_of_codes {queries : List Query} {statements : List Stmt}
    (codes : queries.mapM (Query.code ordinal plan) = some statements) :
    AreQueries ordinal plan (Stmt.queriesOfAll statements) queries ∧ Stmt.loopQueriesOfAll statements = [] := by
  have each := forall₂_of_mapM codes
  clear codes
  induction each with
  | nil => exact ⟨.nil, rfl⟩
  | cons code _ ih =>
      obtain ⟨operation, isQuery, noLoop⟩ := queries_of_clauseCode code
      rw [Stmt.queriesOfAll, Stmt.loopQueriesOfAll, isQuery, noLoop, ih.2]
      exact ⟨.cons ⟨_, code, isQuery⟩ ih.1, rfl⟩

theorem management_parts {parts : Name → List Stmt} (each : ∀ name, ∀ statement ∈ parts name, statement.IsManagement)
    (names : List Name) : ∀ statement ∈ (names.map parts).flatten, statement.IsManagement := by
  intro statement member
  obtain ⟨_, isPart, inPart⟩ := List.mem_flatten.1 member
  obtain ⟨name, _, rfl⟩ := List.mem_map.1 isPart
  exact each name statement inPart

theorem management_clears (name : Name) : ∀ statement ∈ clearRoundsCode name, statement.IsManagement := by
  simp [clearRoundsCode, Stmt.IsManagement]

theorem management_advance (name : Name) : ∀ statement ∈ advanceCode name, statement.IsManagement := by
  simp [advanceCode, Stmt.IsManagement]

theorem management_seeds (names : List Name) : ∀ statement ∈ names.map seedCode, statement.IsManagement := by
  intro statement member
  obtain ⟨name, _, rfl⟩ := List.mem_map.1 member
  trivial

/-- The queries of a stratum outside of its loop and in it. -/
theorem areQueries_stratum {stratum : Stratum} {statement : Stmt}
    (code : stratumCode ordinal plan stratum = some statement) :
    AreQueries ordinal plan statement.queries (completeQueries plan stratum.relations) ∧
      AreQueries ordinal plan statement.loopQueries
        (if stratum.recursive then roundQueries plan stratum.relations else []) := by
  obtain ⟨once, areOnce, shape⟩ := stratumCode_eq_some code
  obtain ⟨outside, noLoops⟩ := areQueries_of_codes areOnce
  split at shape
  · next recursive =>
      obtain ⟨queries, areRepeated, rfl⟩ := shape
      obtain ⟨inside, noLoopsInside⟩ := areQueries_of_codes areRepeated
      obtain ⟨seeds, seedLoops⟩ := Stmt.queriesOfAll_management (management_seeds stratum.relations)
      obtain ⟨clears, clearLoops⟩ :=
        Stmt.queriesOfAll_management (management_parts management_clears stratum.relations)
      obtain ⟨advances, advanceLoops⟩ :=
        Stmt.queriesOfAll_management (management_parts management_advance stratum.relations)
      rw [if_pos recursive]
      refine ⟨?_, ?_⟩
      · simpa [Stmt.queries, repeatedCode, Stmt.queriesOfAll, seeds, clears] using outside
      · simpa [Stmt.queries, Stmt.loopQueries, repeatedCode, roundCode, Stmt.queriesOfAll, Stmt.loopQueriesOfAll,
          noLoops, noLoopsInside, seedLoops, clearLoops, advances, advanceLoops] using inside
  · next single =>
      subst shape
      rw [if_neg single, Stmt.queries, Stmt.loopQueries, noLoops]
      exact ⟨outside, .nil⟩

/-- The step of a stratum has the queries of the stratum. -/
theorem queries_of_step (evaluation : Stmt) (strategy : Strategy) (expired : List Name) :
    (Stmt.sequence [evaluation, clearExpiredCode strategy expired]).queries = evaluation.queries ∧
      (Stmt.sequence [evaluation, clearExpiredCode strategy expired]).loopQueries = evaluation.loopQueries := by
  have none : (clearExpiredCode strategy expired).queries = [] ∧
      (clearExpiredCode strategy expired).loopQueries = [] := by
    cases strategy with
    | provenance => exact ⟨rfl, rfl⟩
    | seminaive =>
        refine Stmt.queriesOfAll_management fun statement member => ?_
        obtain ⟨name, _, rfl⟩ := List.mem_map.1 member
        trivial
  simp [Stmt.queries, Stmt.loopQueries, Stmt.queriesOfAll, Stmt.loopQueriesOfAll, none]

/-! ## The versions of one clause -/

theorem filter_zipIdx {α : Type} (elements : List α) (start position : Nat) :
    (elements.zipIdx start).filter (fun entry => entry.2 = start + position) =
      (elements[position]?.map fun element => (element, start + position)).toList := by
  induction elements generalizing start position with
  | nil => rfl
  | cons element rest ih =>
      rw [List.zipIdx_cons, List.filter_cons]
      cases position with
      | zero =>
          have later : (rest.zipIdx (start + 1)).filter (fun entry => entry.2 = start + 0) = [] := by
            refine List.filter_eq_nil_iff.2 fun entry member => ?_
            have := (List.mem_zipIdx member).1
            simp
            omega
          rw [later]
          simp
      | succ position =>
          have shifted := ih (start + 1) position
          rw [Nat.add_right_comm, Nat.add_assoc start] at shifted
          simpa using shifted

theorem filter_flatMap_of_agrees {α β : Type} {elements : List α} {parts : α → List β} {kept : β → Bool}
    {keeps : α → Bool} (agrees : ∀ element, ∀ part ∈ parts element, kept part = keeps element) :
    (elements.flatMap parts).filter kept = (elements.filter keeps).flatMap parts := by
  induction elements with
  | nil => rfl
  | cons element rest ih =>
      rw [List.flatMap_cons, List.filter_append, ih, List.filter_cons]
      cases keep : keeps element with
      | true =>
          have all : (parts element).filter kept = parts element :=
            List.filter_eq_self.2 fun part member => by rw [agrees element part member, keep]
          simp [all]
      | false =>
          have none : (parts element).filter kept = [] :=
            List.filter_eq_nil_iff.2 fun part member => by simp [agrees element part member, keep]
          simp [none]

theorem flatMap_eq_of_unique {α β : Type} {elements : List α} {parts : α → List β} (once : elements.Nodup)
    {element : α} (member : element ∈ elements) (others : ∀ other, other ≠ element → parts other = []) :
    elements.flatMap parts = parts element := by
  induction elements with
  | nil => simp at member
  | cons first rest ih =>
      obtain ⟨outside, once⟩ := List.nodup_cons.1 once
      rw [List.flatMap_cons]
      by_cases here : first = element
      · have rest : rest.flatMap parts = [] :=
          List.flatMap_eq_nil_iff.2 fun other inRest => others other fun same => outside (here ▸ same ▸ inRest)
        rw [here, rest, List.append_nil]
      · rw [others first here, List.nil_append]
        exact ih once ((List.mem_cons.1 member).resolve_left (Ne.symm here))

variable {clause : Clause} {id : Nat}

/-- Of all entries of a clause list only one has a given position in the program. -/
theorem filter_clausesOf (atId : plan.program.clauses[id]? = some clause) (name : Name) (recursive : Bool) :
    (plan.clausesOf name recursive).filter (fun entry => entry.2 = id) =
      if clause.head.relation = name ∧ isRecursive plan.program clause = recursive then [(clause, id)] else [] := by
  have single := filter_zipIdx plan.program.clauses 0 id
  rw [Nat.zero_add, atId] at single
  rw [Plan.clausesOf, Program.clausesOf, Program.numberedClauses,
    List.filter_comm (fun entry : Clause × Nat => decide (entry.2 = id)),
    List.filter_comm (fun entry : Clause × Nat => decide (entry.2 = id)), single]
  by_cases isHead : clause.head.relation = name <;>
    by_cases isKind : isRecursive plan.program clause = recursive <;> simp [isHead, isKind]

/-- The versions of a clause among the queries of all clauses of one kind. -/
theorem versionsOf_flatMap (atId : plan.program.clauses[id]? = some clause) {names : List Name}
    (once : names.Nodup) (member : clause.head.relation ∈ names) {recursive : Bool}
    {queriesOf : Clause × Nat → List Query} (ids : ∀ entry, ∀ query ∈ queriesOf entry, query.id = entry.2) :
    versionsOf id (names.flatMap fun name => (plan.clausesOf name recursive).flatMap queriesOf) =
      if isRecursive plan.program clause = recursive then queriesOf (clause, id) else [] := by
  have each (name : Name) : ((plan.clausesOf name recursive).flatMap queriesOf).filter (fun query => query.id = id) =
      ((plan.clausesOf name recursive).filter fun entry => entry.2 = id).flatMap queriesOf :=
    filter_flatMap_of_agrees fun entry query isQuery => by rw [ids entry query isQuery]
  rw [versionsOf, List.filter_flatMap]
  simp only [each, filter_clausesOf atId]
  rw [flatMap_eq_of_unique once member fun other different => by simp [Ne.symm different]]
  by_cases isKind : isRecursive plan.program clause = recursive <;> simp [isKind]

theorem versionsOf_completeQueries (atId : plan.program.clauses[id]? = some clause) {names : List Name}
    (once : names.Nodup) (member : clause.head.relation ∈ names) :
    versionsOf id (completeQueries plan names) =
      if isRecursive plan.program clause = false then [⟨clause, id, .complete⟩] else [] := by
  simp only [completeQueries, List.map_eq_flatMap]
  exact versionsOf_flatMap atId once member (by simp)

theorem versionsOf_roundQueries (atId : plan.program.clauses[id]? = some clause) {names : List Name}
    (once : names.Nodup) (member : clause.head.relation ∈ names) :
    versionsOf id (roundQueries plan names) =
      if isRecursive plan.program clause = true then
        (positionsWithin clause names).map fun position => ⟨clause, id, .incremental (some position)⟩
      else [] := by
  have byPosition : (positionsWithin clause names).map (fun position => ⟨clause, id, .incremental (some position)⟩) =
      (List.range (positionsWithin clause names).length).map fun version =>
        (⟨clause, id, .incremental (positionsWithin clause names)[version]?⟩ : Query) :=
    List.ext_getElem (by simp) (by simp)
  rw [byPosition]
  exact versionsOf_flatMap atId once member (by simp)

/-! ## All clauses -/

variable {program : Program} {strategy : Strategy} {debugInfo : Bool} {compiled : Ram.Program}

/-- Within the stratum of its head, a clause's own positions are those of the stratum's relations. -/
theorem positionsWithin_eq_ownPositions (once : program.relationNames.Nodup) {position : Nat} {stratum : Stratum}
    (found : (strata program)[position]? = some stratum) (member : clause.head.relation ∈ stratum.relations) :
    positionsWithin clause stratum.relations = ownPositions program clause := by
  have isHead := (stratumOf?_eq_some_iff once).2 ((InStratum.of_getElem? found).2 member)
  rw [positionsWithin, ownPositions, isHead]
  refine congrArg _ (List.filter_congr fun entry _ => ?_)
  rw [Bool.eq_iff_iff, List.contains_iff_mem, decide_eq_true_eq, stratumOf?_eq_some_iff once,
    InStratum.of_getElem? found]

/-- A recursive clause has a positive atom of its stratum, which then has a loop. -/
theorem loops_of_isRecursive (once : program.relationNames.Nodup) (noEquivalence : program.NoEquivalence)
    (atId : program.clauses[id]? = some clause) {position : Nat} {stratum : Stratum}
    (found : (strata program)[position]? = some stratum) (member : clause.head.relation ∈ stratum.relations)
    (recursive : isRecursive program clause = true) :
    stratum.recursive = true ∧ ownPositions program clause ≠ [] := by
  have isHead := (InStratum.of_getElem? found).2 member
  obtain ⟨atom, isAtom, declared, same⟩ := sameComponent_of_isRecursive (fun _ => noEquivalence.equivalenceTypes_eq)
    (List.mem_of_getElem? atId) isHead.declared recursive
  obtain ⟨other, inside⟩ := exists_inStratum declared
  obtain rfl := (isHead.eq_iff_sameComponent once inside).2 same
  have isOwn := (InStratum.of_getElem? found).1 inside
  refine ⟨recursive_of_reads once found member isOwn
    ⟨declared, clause, List.mem_of_getElem? atId, rfl, Clause.reads_of_positive isAtom⟩, ?_⟩
  rw [← positionsWithin_eq_ownPositions once found member]
  obtain ⟨index, atIndex⟩ := List.getElem?_of_mem isAtom
  exact List.ne_nil_of_mem (mem_positionsWithin.2 ⟨atom, atIndex, isOwn⟩)

theorem evaluates_of_stratumCode (once : plan.program.relationNames.Nodup)
    (noEquivalence : plan.program.NoEquivalence) (atId : plan.program.clauses[id]? = some clause) {position : Nat}
    {stratum : Stratum} (found : (strata plan.program)[position]? = some stratum)
    (member : clause.head.relation ∈ stratum.relations) {evaluation statement : Stmt}
    (code : stratumCode ordinal plan stratum = some evaluation)
    (same : statement.queries = evaluation.queries ∧ statement.loopQueries = evaluation.loopQueries) :
    Evaluates ordinal plan statement clause id (completeQueries plan stratum.relations)
      (if stratum.recursive then roundQueries plan stratum.relations else []) := by
  have distinct := stratum_relations_nodup once (List.mem_of_getElem? found)
  obtain ⟨outside, inside⟩ := areQueries_stratum code
  refine ⟨same.1 ▸ outside, same.2 ▸ inside, fun complete => ⟨?_, ?_⟩, fun recursive => ?_⟩
  · rw [versionsOf_completeQueries atId distinct member, if_pos complete]
  · split
    · rw [versionsOf_roundQueries atId distinct member, if_neg (by simp [complete])]
    · rfl
  · obtain ⟨loops, hasAtom⟩ := loops_of_isRecursive once noEquivalence atId found member recursive
    rw [if_pos loops, versionsOf_completeQueries atId distinct member, if_neg (by simp [recursive]),
      versionsOf_roundQueries atId distinct member, if_pos recursive,
      positionsWithin_eq_ownPositions once found member]
    exact ⟨rfl, hasAtom, rfl⟩

/-- The main statement of a lowered program evaluates it step by step. -/
theorem hasSteps_of_lowered (lowered : (lowerProgram program strategy debugInfo).result = .ok compiled) :
    ∃ plan steps, Plan.of program strategy debugInfo = .ok plan ∧
      evaluationCode compiled.symbols.ordinal plan = some (.sequence steps) ∧
      HasSteps strategy compiled.main.tree steps := by
  cases strategy with
  | seminaive =>
      obtain ⟨plan, planned, code⟩ := evaluationCode_of_lowered lowered (Symbols.agrees_ordinal _)
      obtain ⟨steps, isSequence, _⟩ := evaluationCode_eq_some code
      exact ⟨plan, steps, planned, isSequence ▸ code, isSequence⟩
  | provenance =>
      obtain ⟨plan, evaluation, infos, planned, code, _, isMain⟩ := codes_of_lowered lowered
      obtain ⟨steps, rfl, _⟩ := evaluationCode_eq_some code
      exact ⟨plan, steps, planned, code, infos, isMain⟩

/-- No clause is lost: if no attribute is typed by an equivalence relation, every clause with a declared head is
evaluated in the step of its stratum. -/
theorem clauses_evaluated (once : program.relationNames.Nodup) (noEquivalence : program.NoEquivalence)
    (lowered : (lowerProgram program strategy debugInfo).result = .ok compiled) :
    ∃ plan steps, Plan.of program strategy debugInfo = .ok plan ∧ HasSteps strategy compiled.main.tree steps ∧
      ∀ id clause, program.clauses[id]? = some clause → clause.head.relation ∈ program.relationNames →
        ∃ position step complete repeated, stratumOf? (strata program) clause.head.relation = some position ∧
          steps[position]? = some step ∧
          Evaluates compiled.symbols.ordinal plan step clause id complete repeated := by
  obtain ⟨plan, steps, planned, code, isMain⟩ := hasSteps_of_lowered lowered
  obtain ⟨scheduled, rfl, _⟩ := scheduled_of planned
  refine ⟨plan, steps, planned, isMain, fun id clause atId declared => ?_⟩
  obtain ⟨position, inside⟩ := exists_inStratum declared
  obtain ⟨stratum, found, member⟩ := inside
  obtain ⟨others, isSequence, _, each⟩ := evaluationCode_eq_some code
  obtain rfl : others = steps := by cases isSequence; rfl
  obtain ⟨evaluation, isEvaluation, isStep⟩ := each position stratum (scheduled.strata ▸ found)
  exact ⟨position, _, _, _, (stratumOf?_eq_some_iff once).2 ⟨stratum, found, member⟩, isStep,
    evaluates_of_stratumCode once noEquivalence atId found member isEvaluation (queries_of_step _ _ _)⟩

theorem clauses_evaluated_parity :
    parity.relationNames.Nodup ∧ parity.NoEquivalence ∧
      ∃ compiled plan steps, (lowerProgram parity .seminaive true).result = .ok compiled ∧
        Plan.of parity .seminaive true = .ok plan ∧ HasSteps .seminaive compiled.main.tree steps ∧
        ∀ id clause, parity.clauses[id]? = some clause → clause.head.relation ∈ parity.relationNames →
          ∃ position step complete repeated, stratumOf? (strata parity) clause.head.relation = some position ∧
            steps[position]? = some step ∧
            Evaluates compiled.symbols.ordinal plan step clause id complete repeated := by
  have once : parity.relationNames.Nodup := by decide
  have noEquivalence : parity.NoEquivalence := by
    unfold Program.NoEquivalence
    decide
  obtain ⟨compiled, lowered⟩ := exists_result (show (lowerProgram parity .seminaive true).result.isOk by
    decide +kernel)
  obtain ⟨plan, steps, planned, isMain, evaluated⟩ := clauses_evaluated once noEquivalence lowered
  exact ⟨once, noEquivalence, compiled, plan, steps, lowered, planned, isMain, evaluated⟩

/-- Pairs, whose type is the equivalence relation that they generate. -/
def sameness : Program where
  types := [⟨⟨["same"]⟩, .equivalence ⟨["number"]⟩⟩]
  relations :=
    [⟨⟨["pair"]⟩, [⟨"a", ⟨["same"]⟩⟩, ⟨"b", ⟨["same"]⟩⟩], .standard, []⟩,
      ⟨⟨["same"]⟩, [⟨"a", ⟨["number"]⟩⟩, ⟨"b", ⟨["number"]⟩⟩], .eqrel, [.output]⟩]
  clauses :=
    [⟨⟨⟨["pair"]⟩, [.constant (.number 1), .constant (.number 2)]⟩, []⟩,
      ⟨⟨⟨["same"]⟩, [.var "x", .var "y"]⟩, [.positive ⟨["pair"]⟩ [.var "x", .var "y"]]⟩]

/-- The main statement of `sameness` has a query for only one of its two clauses. The other one is recursive by its
types, and its stratum has no loop. -/
theorem sameness_loses_clause :
    sameness.relationNames.Nodup ∧
      (∀ clause ∈ sameness.clauses, clause.head.relation ∈ sameness.relationNames) ∧
      sameness.clauses.map (isRecursive sameness) = [false, true] ∧
      (strata sameness).map Stratum.recursive = [false, false] ∧
      ((lowerProgram sameness .seminaive false).result.toOption.map fun compiled =>
        (compiled.main.tree.queries.length, compiled.main.tree.loopQueries.length)) = some (1, 0) := by
  decide +kernel

end Lowering

end DatalogRam
