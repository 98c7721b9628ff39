import DatalogRam.Lowering.Clause

/-!
# Code for strata

A stratum first runs its clauses that are not recursive. If it reads itself, it then repeats its recursive
clauses, reading the rows that the previous round found, until a round finds no new row. After a stratum the
relations that nothing reads any more are cleared, unless everything is to be kept.
-/

namespace DatalogRam.Lowering

open Ram Analysis

/-- The queries of a relation's clauses that are not recursive. -/
def lowerCompleteClauses (plan : Plan) (relation : Name) : Lower (List (Placed Stmt)) :=
  (plan.clausesOf relation false).mapM fun (clause, id) => lowerComplete plan clause id .insertion

/-- The queries of a relation's recursive clauses: one for each body atom of the stratum. -/
def lowerRecursiveClauses (plan : Plan) (stratum : List Name) (relation : Name) :
    Lower (List (Placed Stmt)) := do
  let queries ← (plan.clausesOf relation true).mapM fun (clause, id) =>
    (List.range (positionsWithin clause stratum).length).mapM fun version =>
      lowerIncremental plan clause id stratum version .insertion
  return queries.flatten

/-- Add the rows that a round found, and make them the rows to be read in the next one. -/
def advance (relation : Name) : Build (List (Placed Stmt)) := do
  let merge ← placeStmt (.merge (freshName relation) relation.text)
  let swap ← placeStmt (.swap (deltaName relation) (freshName relation))
  let clear ← placeStmt (.clear (freshName relation))
  return [merge, swap, clear]

/-- The loop of a stratum. -/
def lowerLoop (plan : Plan) (stratum : List Name) : Lower (Placed Stmt) := do
  let queries ← stratum.mapM (lowerRecursiveClauses plan stratum)
  let empty ← stratum.mapM fun relation => inArena (placeCond (.isEmpty (freshName relation)))
  let exit ← placeStmt (.exit (← conjunction empty))
  let advances ← stratum.mapM fun relation => inArena (advance relation)
  let body ← sequence (queries.flatten ++ [exit] ++ advances.flatten)
  placeStmt (.loop body)

/-- Forget the tables that a loop needs beside a relation's own. -/
def clearRounds (relation : Name) : Build (List (Placed Stmt)) := do
  let delta ← placeStmt (.clear (deltaName relation))
  let fresh ← placeStmt (.clear (freshName relation))
  return [delta, fresh]

/-- The statement that evaluates a stratum. -/
def lowerStratum (plan : Plan) (position : Nat) (stratum : Stratum) : Lower (Placed Stmt) := do
  report .debug "translating stratum"
    [("scc", toString position), ("relations", toString stratum.relations.length),
      ("recursive", truthText stratum.recursive)]
  let queries ← stratum.relations.mapM (lowerCompleteClauses plan)
  if stratum.recursive then
    let seeds ← stratum.relations.mapM fun relation =>
      inArena (placeStmt (.merge relation.text (deltaName relation)))
    let loop ← lowerLoop plan stratum.relations
    let clears ← stratum.relations.mapM fun relation => inArena (clearRounds relation)
    sequence (queries.flatten ++ seeds ++ [loop] ++ clears.flatten)
  else sequence queries.flatten

/-- The statement that clears relations after their last use. Under provenance nothing is cleared. -/
def clearExpired (strategy : Strategy) (expired : List Name) : Lower (Placed Stmt) := do
  match strategy with
  | .seminaive =>
      let clears ← expired.mapM fun name => do
        report .trace "clearing expired relation" [("relation", name.text)]
        inArena (placeStmt (.clear name.text))
      sequence clears
  | .provenance => sequence []

/-- Declare all relations and write the statement that evaluates them. -/
def lowerEvaluation (plan : Plan) : Lower (Placed Stmt) := do
  plan.program.relations.forM (declareRelation plan)
  let strata ← plan.strata.zipIdx.mapM fun (stratum, position) => do
    let evaluation ← lowerStratum plan position stratum
    let clear ← clearExpired plan.strategy (plan.expirations[position]?.getD [])
    inArena (sequence [evaluation, clear])
  sequence strata

end DatalogRam.Lowering
