import DatalogRam.Lowering.Unit
import DatalogRam.Proofs.Analysis.Expiry
import DatalogRam.Proofs.Lowering.QueryWriting

/-!
# The code of whole programs

The trees of strata and of the whole evaluation, built from those of the clauses, and what the lowering of a
program leaves behind.
-/

namespace DatalogRam.Lowering

open Ram Analysis

section Code

variable (ordinal : String → Int64)

/-- The queries of a relation's clauses that are not recursive. -/
def completeCode (plan : Plan) (relation : Name) : Option (List Stmt) :=
  (plan.clausesOf relation false).mapM fun entry => clauseCode ordinal plan entry.1 entry.2 .complete

/-- The versions of the queries of a recursive clause. -/
def versionCodes (plan : Plan) (stratum : List Name) (entry : Clause × Nat) : Option (List Stmt) :=
  (List.range (positionsWithin entry.1 stratum).length).mapM fun version =>
    clauseCode ordinal plan entry.1 entry.2 (.incremental (positionsWithin entry.1 stratum)[version]?)

/-- The queries of a relation's recursive clauses. -/
def recursiveCode (plan : Plan) (stratum : List Name) (relation : Name) : Option (List Stmt) :=
  ((plan.clausesOf relation true).mapM (versionCodes ordinal plan stratum)).map List.flatten

def advanceCode (relation : Name) : List Stmt :=
  [.merge (freshName relation) relation.text, .swap (deltaName relation) (freshName relation),
    .clear (freshName relation)]

/-- One round of a stratum's loop. -/
def roundCode (stratum : List Name) (queries : List (List Stmt)) : Stmt :=
  .sequence (queries.flatten ++ [.exit (allOf (stratum.map fun relation => .isEmpty (freshName relation)))] ++
    (stratum.map advanceCode).flatten)

def loopCode (plan : Plan) (stratum : List Name) : Option Stmt :=
  (stratum.mapM (recursiveCode ordinal plan stratum)).map fun queries => .loop (roundCode stratum queries)

def seedCode (relation : Name) : Stmt :=
  .merge relation.text (deltaName relation)

def clearRoundsCode (relation : Name) : List Stmt :=
  [.clear (deltaName relation), .clear (freshName relation)]

def stratumCode (plan : Plan) (stratum : Stratum) : Option Stmt := do
  let queries ← stratum.relations.mapM (completeCode ordinal plan)
  if stratum.recursive then
    let loop ← loopCode ordinal plan stratum.relations
    return .sequence (queries.flatten ++ stratum.relations.map seedCode ++ [loop] ++
      (stratum.relations.map clearRoundsCode).flatten)
  else return .sequence queries.flatten

def clearExpiredCode (strategy : Strategy) (expired : List Name) : Stmt :=
  match strategy with
  | .seminaive => .sequence (expired.map fun name => .clear name.text)
  | .provenance => .sequence []

/-- A stratum and what is cleared after it. -/
def stepCode (plan : Plan) (entry : Stratum × Nat) : Option Stmt := do
  let evaluation ← stratumCode ordinal plan entry.1
  return .sequence [evaluation, clearExpiredCode plan.strategy (plan.expirations[entry.2]?.getD [])]

/-- The types of the columns of a relation have kinds. -/
def hasColumns (plan : Plan) (relation : Relation) : Bool :=
  relation.attributes.all fun column => (plan.kinds.kind? column.type).isSome

def evaluationCode (plan : Plan) : Option Stmt := do
  guard (plan.program.relations.all (hasColumns plan))
  let strata ← plan.strata.zipIdx.mapM (stepCode ordinal plan)
  return .sequence strata

end Code

variable {ordinal : String → Int64} {plan : Plan}

theorem writes_complete (clause : Clause) (id : Nat) :
    Writes ordinal Placed.tree (lowerComplete plan clause id .insertion)
      (clauseCode ordinal plan clause id .complete) :=
  (Writes.report _ _ _).andThen (writes_clause clause id .complete)

theorem writes_incremental (clause : Clause) (id : Nat) (stratum : List Name) (version : Nat) :
    Writes ordinal Placed.tree (lowerIncremental plan clause id stratum version .insertion)
      (clauseCode ordinal plan clause id (.incremental (positionsWithin clause stratum)[version]?)) :=
  (Writes.report _ _ _).andThen (writes_clause clause id _)

/-- A lowering of a clause for evaluation: over complete relations, or a version for a stratum. -/
inductive Translation where
  | complete
  | incremental (stratum : List Name) (version : Nat)

def Translation.version (clause : Clause) : Translation → Version
  | complete => .complete
  | incremental stratum version => .incremental (positionsWithin clause stratum)[version]?

def Translation.lower (plan : Plan) (clause : Clause) (id : Nat) : Translation → Lower (Placed Stmt)
  | complete => lowerComplete plan clause id .insertion
  | incremental stratum version => lowerIncremental plan clause id stratum version .insertion

theorem Translation.writes (translation : Translation) (clause : Clause) (id : Nat) :
    Writes ordinal Placed.tree (translation.lower plan clause id)
      (clauseCode ordinal plan clause id (translation.version clause)) := by
  cases translation with
  | complete => exact writes_complete clause id
  | incremental stratum version => exact writes_incremental clause id stratum version

theorem writes_completeClauses (relation : Name) :
    Writes ordinal (List.map Placed.tree) (lowerCompleteClauses plan relation)
      (completeCode ordinal plan relation) :=
  Writes.mapM _ fun entry _ => writes_complete entry.1 entry.2

theorem writes_recursiveClauses (stratum : List Name) (relation : Name) :
    Writes ordinal (List.map Placed.tree) (lowerRecursiveClauses plan stratum relation)
      (recursiveCode ordinal plan stratum relation) := by
  rw [lowerRecursiveClauses, recursiveCode, Option.map_eq_bind]
  refine (Writes.mapM _ fun entry _ => Writes.mapM _ fun version _ =>
    writes_incremental entry.1 entry.2 stratum version).bind ?_
  rintro queries _ rfl
  rw [Function.comp_apply, ← List.map_flatten]
  exact Writes.pure queries.flatten

theorem builds_advance (relation : Name) :
    Builds (List.map Placed.tree) (advance relation) (advanceCode relation) :=
  fun _ => rfl

theorem builds_clearRounds (relation : Name) :
    Builds (List.map Placed.tree) (clearRounds relation) (clearRoundsCode relation) :=
  fun _ => rfl

theorem writes_loop (stratum : List Name) :
    Writes ordinal Placed.tree (lowerLoop plan stratum) (loopCode ordinal plan stratum) := by
  rw [lowerLoop, loopCode, Option.map_eq_bind]
  refine (Writes.mapM _ fun relation _ => writes_recursiveClauses stratum relation).bind ?_
  rintro queries _ rfl
  change Writes ordinal Placed.tree _
    (some (stratum.map fun relation => Cond.isEmpty (freshName relation)) >>= fun empty =>
      some (stratum.map advanceCode) >>= fun advances =>
        some (Stmt.loop (.sequence ((queries.map (List.map Placed.tree)).flatten ++ [.exit (allOf empty)] ++
          advances.flatten))))
  refine (Writes.map _ fun relation _ =>
    Writes.inArena (Builds.cond (.isEmpty (freshName relation)))).bind ?_
  rintro empty _ rfl
  refine Writes.build (builds_conjunction empty) fun condition isCondition => ?_
  refine Writes.build (Builds.stmt (.exit condition)) fun exit isExit => ?_
  refine (Writes.map _ fun relation _ => Writes.inArena (builds_advance relation)).bind ?_
  rintro advances _ rfl
  refine Writes.build (builds_sequence (queries.flatten ++ [exit] ++ advances.flatten)) fun body isBody => ?_
  have exitTree : exit.tree = .exit (allOf (empty.map Placed.tree)) := by
    rw [← isCondition]
    exact isExit
  have bodyTree : body.tree =
      .sequence ((queries.map (List.map Placed.tree)).flatten ++ [.exit (allOf (empty.map Placed.tree))] ++
        (advances.map (List.map Placed.tree)).flatten) := by
    rw [isBody, ← exitTree, ← List.map_flatten, ← List.map_flatten, List.map_append, List.map_append,
      List.map_cons, List.map_nil]
  rw [← bodyTree]
  exact Writes.inArena (Builds.stmt (.loop body))

theorem writes_stratum (position : Nat) (stratum : Stratum) :
    Writes ordinal Placed.tree (lowerStratum plan position stratum) (stratumCode ordinal plan stratum) := by
  rw [lowerStratum, stratumCode]
  refine (Writes.report _ _ _).andThen ?_
  refine (Writes.mapM _ fun relation _ => writes_completeClauses relation).bind ?_
  rintro queries _ rfl
  split
  · change Writes ordinal Placed.tree _
      (some (stratum.relations.map seedCode) >>= fun seeds =>
        loopCode ordinal plan stratum.relations >>= fun loop =>
          some (stratum.relations.map clearRoundsCode) >>= fun clears =>
            some (Stmt.sequence ((queries.map (List.map Placed.tree)).flatten ++ seeds ++ [loop] ++
              clears.flatten)))
    have seed (relation : Name) : Builds Placed.tree (placeStmt (.merge relation.text (deltaName relation)))
        (seedCode relation) :=
      Builds.stmt (.merge relation.text (deltaName relation))
    refine (Writes.map _ fun relation _ => Writes.inArena (seed relation)).bind ?_
    rintro seeds _ rfl
    refine (writes_loop stratum.relations).bind ?_
    rintro loop _ rfl
    refine (Writes.map _ fun relation _ => Writes.inArena (builds_clearRounds relation)).bind ?_
    rintro clears _ rfl
    have built : Builds Placed.tree _ _ := builds_sequence (queries.flatten ++ seeds ++ [loop] ++ clears.flatten)
    rw [List.map_append, List.map_append, List.map_append, List.map_flatten, List.map_flatten, List.map_cons,
      List.map_nil] at built
    exact Writes.inArena built
  · have built : Builds Placed.tree _ _ := builds_sequence queries.flatten
    rw [List.map_flatten] at built
    exact Writes.inArena built

theorem writes_clearExpired (strategy : Strategy) (expired : List Name) :
    Writes ordinal Placed.tree (clearExpired strategy expired) (some (clearExpiredCode strategy expired)) := by
  cases strategy with
  | seminaive =>
      change Writes ordinal Placed.tree _
        (some (expired.map fun name => Stmt.clear name.text) >>= fun clears =>
          some (Stmt.sequence clears))
      refine (Writes.map _ fun name _ =>
        (Writes.report _ _ _).andThen (Writes.inArena (Builds.stmt (.clear name.text)))).bind ?_
      rintro clears _ rfl
      exact Writes.inArena (builds_sequence clears)
  | provenance => exact Writes.inArena (builds_sequence [])

theorem isSome_attributeTypes (attributes : List Attribute) :
    (attributeTypes plan attributes).toOption.isSome =
      attributes.all fun column => (plan.kinds.kind? column.type).isSome := by
  induction attributes with
  | nil => rfl
  | cons first rest ih =>
      rw [attributeTypes, List.all_cons, ← ih, Kinds.columnType]
      cases plan.kinds.kind? first.type with
      | none => rfl
      | some kind =>
          cases attributeTypes plan rest with
          | error error => rfl
          | ok types => rfl

theorem yields_declareRelation (relation : Relation) :
    Yields ordinal id (declareRelation plan relation) (guard (hasColumns plan relation = true)) := by
  rw [declareRelation, hasColumns, ← isSome_attributeTypes]
  dsimp only [tableFor]
  cases attributeTypes plan relation.attributes with
  | error error => exact .of_writes (Writes.throw _)
  | ok types =>
      let table (name : String) : Table := relationTable plan.strategy relation name types
      change Yields ordinal id
        (do
          declareTable (table relation.name.text)
          if plan.isRecursiveRelation relation.name then
            declareTable (table (deltaName relation.name))
            declareTable (table (freshName relation.name)))
        (some ())
      refine (Yields.declareTable _).andThen ?_
      split
      · exact (Yields.declareTable _).andThen (Yields.declareTable _)
      · exact .of_writes (Writes.pure ())

theorem forM_guard {α : Type} (elements : List α) (holds : α → Bool) :
    (elements.forM fun element => guard (holds element = true) : Option Unit) =
      guard (elements.all holds = true) := by
  induction elements with
  | nil => rfl
  | cons element rest ih =>
      change ((guard (holds element = true)) >>= fun _ => rest.forM _) = _
      rw [ih, List.all_cons]
      cases holds element <;> rfl

theorem writes_step (entry : Stratum × Nat) :
    Writes ordinal Placed.tree
      (do
        let evaluation ← lowerStratum plan entry.2 entry.1
        let clear ← clearExpired plan.strategy (plan.expirations[entry.2]?.getD [])
        inArena (sequence [evaluation, clear]))
      (stepCode ordinal plan entry) := by
  let expired := plan.expirations[entry.2]?.getD []
  change Writes ordinal Placed.tree _
    (stratumCode ordinal plan entry.1 >>= fun evaluation =>
      some (clearExpiredCode plan.strategy expired) >>= fun clear => some (Stmt.sequence [evaluation, clear]))
  refine (writes_stratum entry.2 entry.1).bind ?_
  rintro evaluation _ rfl
  refine (writes_clearExpired plan.strategy expired).bind ?_
  rintro clear _ rfl
  exact Writes.inArena (builds_sequence [evaluation, clear])

theorem yields_evaluation :
    Yields ordinal Placed.tree (lowerEvaluation plan) (evaluationCode ordinal plan) := by
  rw [lowerEvaluation, evaluationCode, ← forM_guard]
  refine (Yields.forM _ fun relation _ => yields_declareRelation relation).bind ?_
  rintro _ _ rfl
  apply Yields.of_writes
  refine Writes.bind (Writes.mapM plan.strata.zipIdx fun entry _ => writes_step entry) ?_
  rintro strata _ rfl
  exact Writes.inArena (builds_sequence strata)

/-- The schedule of a plan is that of its program. -/
structure Plan.Scheduled (plan : Plan) : Prop where
  strata : plan.strata = Analysis.strata plan.program
  expirations : plan.expirations = Analysis.expirations plan.program (Analysis.strata plan.program)

theorem scheduled_of {program : Program} {strategy : Strategy} {debugInfo : Bool}
    (planned : Plan.of program strategy debugInfo = .ok plan) :
    plan.Scheduled ∧ plan.program = program ∧ plan.strategy = strategy := by
  rw [Plan.of] at planned
  split at planned
  · cases planned
  · cases planned
    exact ⟨⟨rfl, Analysis.map_expired_schedule _ _⟩, rfl, rfl⟩

end DatalogRam.Lowering
