import DatalogRam.Proofs.Datalog.SemiNaive
import DatalogRam.Proofs.Evaluation.Changes
import DatalogRam.Proofs.Evaluation.Queries
import DatalogRam.Proofs.Evaluation.Regular

/-!
# The rounds of a stratum

The code of a stratum computes on logical contents what semi-naive evaluation computes on facts. The phases are
taken one by one: the queries that run once, the seeds of the rounds, the rounds with their exit, and the clearing
of the tables for rounds.
-/

namespace DatalogRam.Lowering

open Machine Ram Analysis

/-- The relations of a stratum with their clauses. -/
def componentOf (program : Program) (stratum : Stratum) : Component where
  names := stratum.relations
  complete := stratum.relations.flatMap fun name =>
    ((program.clausesOf name).filter fun entry => isRecursive program entry.1 == false).map (·.1)
  recursive := stratum.relations.flatMap fun name =>
    ((program.clausesOf name).filter fun entry => isRecursive program entry.1 == true).map (·.1)
  repeats := stratum.recursive

/-- The components of a program, in the order of their evaluation. -/
def componentsOf (program : Program) : List Component :=
  (strata program).map (componentOf program)

variable {ordinal : String → Int64} {plan : Plan} {names : List Name} {tracked : Part → Name → Prop}

theorem mem_componentOf {program : Program} {recursive : Bool} {clause : Clause} :
    (clause ∈ names.flatMap fun name =>
        ((program.clausesOf name).filter fun entry => isRecursive program entry.1 == recursive).map (·.1)) ↔
      clause ∈ program.clauses ∧ clause.head.relation ∈ names ∧ isRecursive program clause = recursive := by
  simp only [List.mem_flatMap, List.mem_map, List.mem_filter, beq_iff_eq, Prod.exists, Program.mem_clausesOf]
  constructor
  · rintro ⟨name, member, _, id, ⟨⟨position, rfl⟩, isKind⟩, rfl⟩
    exact ⟨List.mem_of_getElem? position, member, isKind⟩
  · rintro ⟨isClause, member, isKind⟩
    obtain ⟨id, position⟩ := List.getElem?_of_mem isClause
    exact ⟨_, member, clause, id, ⟨⟨position, rfl⟩, isKind⟩, rfl⟩

/-! ## Queries that run once -/

variable {position : Nat} {stratum : Stratum} {query : Query} {part : Part} {full delta : Facts}

/-- The stores whose live tables have some contents. -/
def Holding (plan : Plan) (position : Nat) (contents : Contents) (store : Store) : Prop :=
  Represents plan.program plan.auxiliary (Live plan.program position) store contents

/-- The stores between strata. -/
def AtRest (plan : Plan) (position : Nat) (facts : Facts) : Store → Prop :=
  Holding plan position (.of facts Facts.none Facts.none)

/-- The stores between the rounds of a stratum with some relations. -/
def InRound (plan : Plan) (position : Nat) (names : List Name) (pair : Facts × Facts) (store : Store) : Prop :=
  Holding plan position (.of pair.1 pair.2 Facts.none) store ∧ ∀ name ∉ names, pair.2 name = ∅

theorem Contents.of_add_full (full delta fresh more : Facts) :
    (Contents.of full delta fresh).add .full more = .of (full.union more) delta fresh := by
  funext part
  cases part <;> rfl

theorem Contents.of_add_fresh (full delta more : Facts) :
    (Contents.of full delta Facts.none).add .fresh more = .of full delta more := by
  funext part name
  cases part with
  | full => rfl
  | delta => rfl
  | fresh => exact Set.empty_union (more name)

theorem runnable_of_stratum (regular : plan.program.RegularIn stratum)
    (followed : Followed plan.program stratum tracked) (isClause : plan.program.clauses[query.id]? = some query.clause)
    (inside : query.clause.head.relation ∈ stratum.relations) (isPart : query.version.part = part)
    (isFact : query.clause.isFact = true → query.version = .complete)
    (others : query.version.isIncremental = false → Clause.ReadsOthers query.clause)
    (own : ∀ position atom, query.clause.positiveAtoms[position]? = some atom →
      query.version.readsDelta position = true → atom.relation ∈ stratum.relations) :
    Runnable plan tracked part stratum.relations query := by
  have member := List.mem_of_getElem? isClause
  have declared := regular.declared _ member inside
  have read {atom : Atom} (isAtom : atom ∈ query.clause.atoms) : tracked .full atom.relation :=
    followed.read _ member inside _ isAtom
  have positive (position : Nat) (atom : Atom) (atPosition : query.clause.positiveAtoms[position]? = some atom) :
      tracked (query.version.reads position) atom.relation := by
    rw [Version.reads]
    split
    · next readsDelta => exact followed.own .delta _ (own position atom atPosition readsDelta)
    · exact read (Clause.positive_mem_atoms (List.mem_of_getElem? atPosition))
  exact
    { simple := regular.simple _ member inside
      isFact := isFact
      declared := declared
      separate := separate_of_distinct regular.distinct declared others
      follows :=
        { head := read query.clause.head_mem_atoms
          target := followed.own _ _ inside
          positive := positive
          negated := fun atom isNegated => read (Clause.negated_mem_atoms isNegated) }
      part := isPart
      head := inside }

theorem addedBy_complete (facts : Facts) :
    addedBy ordinal (completeQueries plan names) (.of facts Facts.none Facts.none) =
      Component.derived ordinal (names.flatMap fun name =>
        ((plan.program.clausesOf name).filter fun entry =>
          isRecursive plan.program entry.1 == false).map (·.1)) facts := by
  funext name
  ext row
  constructor
  · rintro ⟨query, member, isHead, _, derives⟩
    obtain ⟨atId, inside, complete, isVersion⟩ := mem_completeQueries.1 member
    rw [isVersion] at derives
    exact ⟨query.clause, mem_componentOf.2 ⟨List.mem_of_getElem? atId, inside, complete⟩, isHead, derives⟩
  · rintro ⟨clause, member, isHead, derives⟩
    obtain ⟨isClause, inside, complete⟩ := mem_componentOf.1 member
    obtain ⟨id, atId⟩ := List.getElem?_of_mem isClause
    exact ⟨⟨clause, id, .complete⟩, mem_completeQueries.2 ⟨atId, inside, complete, rfl⟩, isHead,
      ⟨fun incremental => (nomatch incremental), derives⟩⟩

theorem readsOthers_of_complete (regular : plan.program.Regular)
    (found : (strata plan.program)[position]? = some stratum)
    (member : query ∈ completeQueries plan stratum.relations) {atom : Atom}
    (isRead : atom ∈ query.clause.positiveAtoms ∨ atom ∈ query.clause.negatedAtoms) :
    atom.relation ∉ stratum.relations := by
  obtain ⟨atId, inside, complete, _⟩ := mem_completeQueries.1 member
  exact not_mem_of_complete found (regularIn_of_regular found regular) (List.mem_of_getElem? atId) complete inside
    isRead

theorem runnable_complete (regular : plan.program.Regular)
    (found : (strata plan.program)[position]? = some stratum)
    (member : query ∈ completeQueries plan stratum.relations) :
    Runnable plan (Live plan.program position) .full stratum.relations query := by
  obtain ⟨atId, inside, complete, isVersion⟩ := mem_completeQueries.1 member
  refine runnable_of_stratum (regularIn_of_regular found regular) (followed_live regular found) atId inside ?_
    (fun _ => isVersion) (fun _ atom isRead same => ?_) fun _ _ _ readsDelta => ?_
  · rw [isVersion]
    rfl
  · exact readsOthers_of_complete regular found member isRead (same ▸ inside)
  · rw [isVersion] at readsDelta
    cases readsDelta

/-- A query that reads nothing of its stratum does not depend on what is inserted there. -/
theorem independent_complete (regular : plan.program.Regular)
    (found : (strata plan.program)[position]? = some stratum)
    (member : query ∈ completeQueries plan stratum.relations) :
    Independent ordinal .full stratum.relations query := by
  intro contents more outside
  have same {atom : Atom} (isRead : atom ∈ query.clause.positiveAtoms ∨ atom ∈ query.clause.negatedAtoms) :
      contents.add .full more .full atom.relation = contents .full atom.relation := by
    rw [Contents.add_same, Facts.union, outside _ (readsOthers_of_complete regular found member isRead),
      Set.union_empty]
  rw [(mem_completeQueries.1 member).2.2.2]
  ext row
  refine and_congr ?_ ?_
  · exact ⟨fun _ incremental => (nomatch incremental), fun _ incremental => (nomatch incremental)⟩
  constructor
  · exact Clause.Derives.congr (fun _ atom atPosition => same (.inl (List.mem_of_getElem? atPosition)))
      fun atom isNegated => same (.inr isNegated)
  · exact Clause.Derives.congr (fun _ atom atPosition => (same (.inl (List.mem_of_getElem? atPosition))).symm)
      fun atom isNegated => (same (.inr isNegated)).symm

theorem computes_complete (regular : plan.program.Regular)
    (found : (strata plan.program)[position]? = some stratum) (args : Row) {queries : List (List Stmt)}
    (codes : stratum.relations.mapM (completeCode ordinal plan) = some queries) :
    Computes args queries.flatten (AtRest plan position)
      (fun facts final => final = (componentOf plan.program stratum).seeded ordinal facts)
      (AtRest plan position) := by
  have areCodes : (completeQueries plan stratum.relations).mapM (Query.code ordinal plan) =
      some queries.flatten := by
    rw [← completeCode_eq, codes]
    rfl
  refine Computes.of_leads fun facts start isStart => ?_
  have ran := returns_queries args regular.distinct (fun query member => runnable_complete regular found member)
    (fun query member => independent_complete regular found member) areCodes isStart
  rwa [addedBy_complete, Contents.of_add_full] at ran

/-! ## Seeds and clearing -/

theorem change_seeding (facts : Facts) :
    (Contents.of facts Facts.none Facts.none).change names seeding =
      .of facts (facts.within names) Facts.none := by
  funext part name
  by_cases member : name ∈ names <;> cases part <;>
    simp [Contents.change, Contents.of, seeding, Facts.none, Facts.within, member]

theorem change_clearing (outside : ∀ name ∉ names, delta name = ∅) :
    (Contents.of full delta Facts.none).change names clearing = .of full Facts.none Facts.none := by
  funext part name
  by_cases member : name ∈ names <;> cases part <;>
    simp [Contents.change, Contents.of, clearing, Facts.none, member, outside]

theorem computes_seeds (regular : plan.program.Regular)
    (found : (strata plan.program)[position]? = some stratum) (args : Row) :
    Computes args (stratum.relations.map seedCode) (AtRest plan position)
      (fun facts pair => pair = (facts, facts.within stratum.relations))
      (InRound plan position stratum.relations) := by
  refine Computes.of_leads fun facts start isStart => ?_
  obtain ⟨final, isFinal, ran⟩ :=
    leads_change args (stratum_relations_nodup regular.once (List.mem_of_getElem? found))
      (fun name member start contents represents =>
        leads_seed regular.distinct ((inStratum_iff_mem found).2 member).declared
          (fun part => Live.of_touched found (mem_touched_iff.2 (.inl member)) part) represents) isStart
  rw [change_seeding] at isFinal
  rw [← List.flatMap_def, ← List.map_eq_flatMap] at ran
  refine ⟨final, ⟨isFinal, fun name notInside => ?_⟩, ran⟩
  simp [Facts.within, notInside]

theorem computes_clearing (regular : plan.program.Regular)
    (found : (strata plan.program)[position]? = some stratum) (args : Row) :
    Computes args (stratum.relations.map clearRoundsCode).flatten
      (fun final store => ∃ delta, InRound plan position stratum.relations (final, delta) store)
      (fun facts final => final = facts) (AtRest plan position) := by
  refine Computes.of_leads fun facts start isStart => ?_
  obtain ⟨delta, isRound, outside⟩ := isStart
  have ran := leads_change args (stratum_relations_nodup regular.once (List.mem_of_getElem? found))
    (fun name member start contents represents =>
      leads_clearRounds regular.distinct ((inStratum_iff_mem found).2 member).declared represents) isRound
  rwa [change_clearing outside] at ran

/-! ## Rounds -/

theorem addedBy_round :
    addedBy ordinal (roundQueries plan stratum.relations) (.of full delta Facts.none) =
      (componentOf plan.program stratum).found ordinal full delta := by
  funext name
  ext row
  constructor
  · rintro ⟨query, member, rfl, guarded, derives⟩
    obtain ⟨atId, inside, recursive, position, isPosition, isVersion⟩ := mem_roundQueries.1 member
    obtain ⟨atom, atPosition, isOwn⟩ := mem_positionsWithin.1 isPosition
    rw [isVersion] at guarded derives
    rw [Version.reads_incremental] at derives
    exact ⟨guarded rfl, query.clause, mem_componentOf.2 ⟨List.mem_of_getElem? atId, inside, recursive⟩, rfl,
      position, atom, atPosition, isOwn, derives⟩
  · rintro ⟨notFull, clause, member, rfl, position, atom, atPosition, isOwn, derives⟩
    obtain ⟨isClause, inside, recursive⟩ := mem_componentOf.1 member
    obtain ⟨id, atId⟩ := List.getElem?_of_mem isClause
    refine ⟨⟨clause, id, .incremental (some position)⟩, mem_roundQueries.2 ⟨atId, inside, recursive, position,
      mem_positionsWithin.2 ⟨atom, atPosition, isOwn⟩, rfl⟩, rfl, ⟨fun _ => notFull, ?_⟩⟩
    rw [Version.reads_incremental]
    exact derives

theorem found_outside {name : Name} (outside : name ∉ stratum.relations) :
    (componentOf plan.program stratum).found ordinal full delta name = ∅ := by
  rw [Set.eq_empty_iff_forall_notMem]
  rintro row ⟨_, clause, member, rfl, _⟩
  exact outside (mem_componentOf.1 member).2.1

theorem change_advancing {found : Facts} (outside : ∀ name ∉ names, delta name = ∅)
    (alsoOutside : ∀ name ∉ names, found name = ∅) :
    (Contents.of full delta found).change names advancing = .of (full.union found) found Facts.none := by
  funext part name
  by_cases member : name ∈ names
  · cases part <;> simp [Contents.change, Contents.of, advancing, Facts.none, Facts.union, member]
  · cases part <;>
      simp [Contents.change, Contents.of, Facts.none, Facts.union, member, outside, alsoOutside]

theorem runnable_round (regular : plan.program.RegularIn stratum) (followed : Followed plan.program stratum tracked)
    (member : query ∈ roundQueries plan stratum.relations) :
    Runnable plan tracked .fresh stratum.relations query := by
  obtain ⟨atId, inside, _, delta, isPosition, isVersion⟩ := mem_roundQueries.1 member
  obtain ⟨atom, atPosition, isOwn⟩ := mem_positionsWithin.1 isPosition
  refine runnable_of_stratum regular followed atId inside ?_ (fun isFact => ?_) (fun complete => ?_)
    fun position other atOther readsDelta => ?_
  · rw [isVersion]
    rfl
  · rw [Clause.positiveAtoms, List.isEmpty_iff.1 isFact] at atPosition
    cases atPosition
  · rw [isVersion] at complete
    cases complete
  · rw [isVersion, Version.readsDelta, beq_iff_eq, Option.some.injEq] at readsDelta
    rw [← readsDelta, atPosition] at atOther
    cases atOther
    exact isOwn

/-- The queries of a round find what semi-naive evaluation finds. -/
theorem leads_search (regular : plan.program.RegularIn stratum) (followed : Followed plan.program stratum tracked)
    (args : Row) {statements : List Stmt}
    (codes : (roundQueries plan stratum.relations).mapM (Query.code ordinal plan) = some statements) {start : Store}
    (isStart : Represents plan.program plan.auxiliary tracked start (.of full delta Facts.none)) :
    ∃ middle, Represents plan.program plan.auxiliary tracked middle
        (.of full delta ((componentOf plan.program stratum).found ordinal full delta)) ∧
      ∀ rounds, Leads (runStmts rounds args statements) start .proceed middle := by
  have independent : ∀ query ∈ roundQueries plan stratum.relations,
      Independent ordinal .fresh stratum.relations query := by
    intro query member contents more _
    obtain ⟨_, _, _, delta, _, isVersion⟩ := mem_roundQueries.1 member
    have reads (position : Nat) : query.version.reads position ≠ .fresh := by
      rw [Version.reads]
      split <;> intro same <;> cases same
    simp only [Version.adds, Contents.add_other contents more (reads _),
      Contents.add_other contents more (by decide : Part.full ≠ .fresh)]
  have ran := returns_queries args regular.distinct (fun query member => runnable_round regular followed member)
    independent codes isStart
  rwa [addedBy_round, Contents.of_add_fresh] at ran

/-- A conjunction of tests decides whether all tables are empty. -/
theorem decides_allEmpty (args : Row) (state : State) (names : List Name) :
    Decides args state (allOf (names.map fun relation => .isEmpty (freshName relation)))
      (∀ name ∈ names, ∀ row, row ∉ state.store.rows (freshName name)) := by
  let fact (condition : Cond) : Prop := ∀ table, condition = .isEmpty table → ∀ row, row ∉ state.store.rows table
  have each : ∀ condition ∈ names.map fun relation => Cond.isEmpty (freshName relation),
      Decides args state condition (fact condition) := by
    intro condition member
    obtain ⟨name, _, rfl⟩ := List.mem_map.1 member
    refine (decides_isEmpty (freshName name)).congr ⟨?_, fun none => none _ rfl⟩
    rintro none _ same
    cases same
    exact none
  refine (Decides.allOf each).congr ?_
  rw [List.forall_mem_map]
  refine forall₂_congr fun name member => ⟨fun none => none _ rfl, ?_⟩
  rintro none _ same
  cases same
  exact none

/-- The exit of the loop tests whether a round has found nothing. -/
theorem decides_quiet (args : Row) (declared : ∀ name ∈ stratum.relations, name ∈ plan.program.relationNames)
    (followed : Followed plan.program stratum tracked) {state : State}
    (isFound : Represents plan.program plan.auxiliary tracked state.store
      (.of full delta ((componentOf plan.program stratum).found ordinal full delta))) :
    Decides args state (allOf (stratum.relations.map fun relation => .isEmpty (freshName relation)))
      ((componentOf plan.program stratum).Quiet ordinal full delta) := by
  refine (decides_allEmpty args state stratum.relations).congr (forall₂_congr fun name member => ?_)
  exact isFound.isEmpty_iff .fresh (declared name member) (followed.own .fresh name member)

/-! ## The loop -/

section Loop

variable {args : Row} {queries : List (List Stmt)}

theorem declared_of_stratum (found : (strata plan.program)[position]? = some stratum) :
    ∀ name ∈ stratum.relations, name ∈ plan.program.relationNames :=
  fun _ member => ((inStratum_iff_mem found).2 member).declared

/-- A round that finds nothing leaves the loop. -/
theorem leads_exit (regular : plan.program.RegularIn stratum) (followed : Followed plan.program stratum tracked)
    (args : Row) (found : (strata plan.program)[position]? = some stratum)
    (codes : (roundQueries plan stratum.relations).mapM (Query.code ordinal plan) = some queries.flatten)
    {start : Store}
    (isStart : Represents plan.program plan.auxiliary tracked start (.of full delta Facts.none))
    (quiet : (componentOf plan.program stratum).Quiet ordinal full delta) :
    ∃ final, Represents plan.program plan.auxiliary tracked final (.of full delta Facts.none) ∧
      ∀ rounds, Leads (runStmt rounds args (roundCode stratum.relations queries)) start .exit final := by
  obtain ⟨middle, isMiddle, searched⟩ := leads_search regular followed args codes isStart
  have nothing : (componentOf plan.program stratum).found ordinal full delta = Facts.none := by
    funext name
    by_cases inside : name ∈ stratum.relations
    · exact quiet name inside
    · exact found_outside inside
  refine ⟨middle, by rwa [nothing] at isMiddle, fun rounds => ?_⟩
  rw [roundCode, runStmt, List.append_assoc]
  refine (searched rounds).append (Leads.cons_of_ne (by simp) ?_)
  rintro state rfl
  obtain ⟨answer, tested, means⟩ := decides_quiet args (declared_of_stratum found) followed isMiddle
  refine ⟨state.bindings, ?_⟩
  rw [runStmt]
  refine tested.bind ?_
  rw [means.2 quiet]
  exact Returns.pure _ _

/-- A round that finds something is followed by a round on what it found. -/
theorem leads_round (regular : plan.program.RegularIn stratum) (followed : Followed plan.program stratum tracked)
    (args : Row) (found : (strata plan.program)[position]? = some stratum)
    (codes : (roundQueries plan stratum.relations).mapM (Query.code ordinal plan) = some queries.flatten)
    {start : Store}
    (isStart : Represents plan.program plan.auxiliary tracked start (.of full delta Facts.none))
    (outside : ∀ name ∉ stratum.relations, delta name = ∅)
    (notQuiet : ¬(componentOf plan.program stratum).Quiet ordinal full delta) :
    ∃ final, Represents plan.program plan.auxiliary tracked final
        (.of (full.union ((componentOf plan.program stratum).found ordinal full delta))
          ((componentOf plan.program stratum).found ordinal full delta) Facts.none) ∧
      ∀ rounds, Leads (runStmt rounds args (roundCode stratum.relations queries)) start .proceed final := by
  obtain ⟨middle, isMiddle, searched⟩ := leads_search regular followed args codes isStart
  obtain ⟨final, isFinal, advanced⟩ :=
    leads_change args (stratum_relations_nodup regular.once (List.mem_of_getElem? found))
      (fun name member start contents represents =>
        leads_advance regular.distinct (declared_of_stratum found name member)
          (fun part => followed.own part name member) represents) isMiddle
  rw [change_advancing outside fun name => found_outside] at isFinal
  refine ⟨final, isFinal, fun rounds => ?_⟩
  rw [roundCode, runStmt, List.append_assoc]
  refine (searched rounds).append (Leads.cons ?_ (advanced rounds))
  rintro state rfl
  obtain ⟨answer, tested, means⟩ := decides_quiet args (declared_of_stratum found) followed isMiddle
  refine ⟨state.bindings, ?_⟩
  rw [runStmt]
  refine tested.bind ?_
  cases answer with
  | true => exact absurd (means.1 rfl) notQuiet
  | false => exact Returns.pure _ _

/-- Rounds that end on facts end in the loop, if it may make enough of them. -/
theorem ends_loop (regular : plan.program.Regular) (args : Row)
    (found : (strata plan.program)[position]? = some stratum)
    (codes : (roundQueries plan stratum.relations).mapM (Query.code ordinal plan) = some queries.flatten)
    {final : Facts} (saturates : (componentOf plan.program stratum).Saturates ordinal full delta final)
    {start : Store} (isStart : InRound plan position stratum.relations (full, delta) start) :
    ∃ store, (∃ delta, InRound plan position stratum.relations (final, delta) store) ∧
      ∃ enough, ∀ limit, enough ≤ limit → ∀ rounds,
        Leads (repeatBody (runStmt rounds args (roundCode stratum.relations queries)) limit) start .proceed
          store := by
  induction saturates generalizing start with
  | @quiet full delta isQuiet =>
      obtain ⟨store, isStore, exits⟩ := leads_exit (regularIn_of_regular found regular) (followed_live regular found)
        args found codes isStart.1 isQuiet
      refine ⟨store, ⟨delta, isStore, isStart.2⟩, 1, fun limit enough rounds state isState => ?_⟩
      obtain ⟨limit, rfl⟩ : ∃ before, limit = before + 1 := ⟨limit - 1, by omega⟩
      obtain ⟨bindings, ran⟩ := exits rounds state isState
      refine ⟨bindings, ?_⟩
      rw [repeatBody]
      exact ran.bind (Returns.pure _ _)
  | round notQuiet _ ih =>
      obtain ⟨middle, isMiddle, proceeds⟩ := leads_round (regularIn_of_regular found regular)
        (followed_live regular found) args found codes isStart.1 isStart.2 notQuiet
      obtain ⟨store, isStore, enough, onward⟩ := ih ⟨isMiddle, fun name => found_outside⟩
      refine ⟨store, isStore, enough + 1, fun limit isEnough rounds state isState => ?_⟩
      obtain ⟨limit, rfl⟩ : ∃ before, limit = before + 1 := ⟨limit - 1, by omega⟩
      obtain ⟨bindings, ran⟩ := proceeds rounds state isState
      obtain ⟨bindings', ran'⟩ :=
        onward limit (by omega) rounds { state with store := middle, bindings := bindings } rfl
      refine ⟨bindings', ?_⟩
      rw [repeatBody]
      exact ran.bind ran'

/-- A loop that ends has made rounds that end on facts. -/
theorem saturates_of_returns (regular : plan.program.Regular)
    (found : (strata plan.program)[position]? = some stratum)
    (codes : (roundQueries plan stratum.relations).mapM (Query.code ordinal plan) = some queries.flatten)
    {rounds limit : Nat} {state last : State} {flow : Flow}
    (isStart : InRound plan position stratum.relations (full, delta) state.store)
    (returns : Returns (repeatBody (runStmt rounds args (roundCode stratum.relations queries)) limit) state flow
      last) :
    ∃ final, (componentOf plan.program stratum).Saturates ordinal full delta final := by
  induction limit generalizing full delta state with
  | zero => exact absurd returns Returns.not_throw
  | succ limit ih =>
      by_cases isQuiet : (componentOf plan.program stratum).Quiet ordinal full delta
      · exact ⟨full, .quiet isQuiet⟩
      · obtain ⟨middle, isMiddle, proceeds⟩ := leads_round (regularIn_of_regular found regular)
          (followed_live regular found) args found codes isStart.1 isStart.2 isQuiet
        obtain ⟨bindings, ran⟩ := proceeds rounds state rfl
        have isRound : InRound plan position stratum.relations
            (full.union ((componentOf plan.program stratum).found ordinal full delta),
              (componentOf plan.program stratum).found ordinal full delta) middle :=
          ⟨isMiddle, fun name => found_outside⟩
        rw [repeatBody] at returns
        obtain ⟨flow', between, first, rest⟩ := returns.of_bind
        obtain ⟨rfl, rfl⟩ := first.unique ran
        obtain ⟨final, onward⟩ := ih isRound rest
        exact ⟨final, .round isQuiet onward⟩

theorem computes_loop (regular : plan.program.Regular) (args : Row)
    (found : (strata plan.program)[position]? = some stratum) {loop : Stmt}
    (code : loopCode ordinal plan stratum.relations = some loop) :
    Computes args [loop] (InRound plan position stratum.relations)
      (fun pair final => (componentOf plan.program stratum).Saturates ordinal pair.1 pair.2 final)
      (fun final store => ∃ delta, InRound plan position stratum.relations (final, delta) store) := by
  obtain ⟨queries, areQueries, rfl⟩ := Option.map_eq_some_iff.1 code
  have codes : (roundQueries plan stratum.relations).mapM (Query.code ordinal plan) = some queries.flatten := by
    rw [← recursiveCode_eq, areQueries]
    rfl
  constructor
  · rintro ⟨full, delta⟩ final start isStart saturates
    obtain ⟨store, isStore, enough, ends⟩ := ends_loop regular args found codes saturates isStart
    refine ⟨store, isStore, enough, fun limit isEnough => ?_⟩
    rw [runStmts_singleton, runStmt]
    exact ends limit isEnough limit
  · rintro ⟨full, delta⟩ rounds state last flow isStart returns
    rw [runStmts_singleton, runStmt] at returns
    exact saturates_of_returns regular found codes isStart returns

end Loop

end DatalogRam.Lowering
