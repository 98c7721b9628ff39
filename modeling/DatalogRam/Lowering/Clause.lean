import DatalogRam.Lowering.Condition
import DatalogRam.Lowering.Relation
import DatalogRam.Lowering.Slots

/-!
# Code for clauses

A clause becomes one query. From the outside in it has a scan for every positive body atom, each with the
comparisons that its arguments ask for; then an aggregate operation for every aggregate; then the conditions of
negations and constraints; and in the middle the insertion of the head. The code is written from the inside out.

In place of the insertion an explanation has an answer: the rows of the body, if the head has the values that
the arguments ask for and, under provenance, all these rows were derived below the level asked for.
-/

namespace DatalogRam.Lowering

open Ram

/-- What the middle of a query does. -/
inductive Purpose where
  | insertion
  /-- Answer with the rows that justify the head that the arguments describe. -/
  | explanation (slots : Slots)

/-- Which rows a query reads and where it inserts. -/
inductive Version where
  /-- Complete relations are read and extended. -/
  | complete
  /-- The atom at position `delta` reads only the rows found in the previous round, and new rows are kept
  apart. -/
  | incremental (delta : Option Nat)

def Version.isIncremental : Version → Bool
  | complete => false
  | incremental _ => true

/-- Whether the atom at a position reads the previous round only. -/
def Version.readsDelta : Version → Nat → Bool
  | complete, _ => false
  | incremental delta, position => delta == some position

mutual

/-- The aggregates of an argument that are not within another one. -/
def Argument.aggregates : Argument → List Aggregate
  | .var _ => []
  | .unnamed => []
  | .constant _ => []
  | .operator _ args => Argument.aggregatesOfAll args
  | .external _ args => Argument.aggregatesOfAll args
  | .aggregate function target body => [⟨function, target, body⟩]
  | .record args => Argument.aggregatesOfAll args
  | .counter => []

def Argument.aggregatesOfAll : List Argument → List Aggregate
  | [] => []
  | arg :: args => Argument.aggregates arg ++ Argument.aggregatesOfAll args

end

/-- The aggregates of a literal that are not within another one. -/
def Literal.aggregates : Literal → List Aggregate
  | .positive _ args => Argument.aggregatesOfAll args
  | .negative _ args => Argument.aggregatesOfAll args
  | .comparison _ left right => Argument.aggregates left ++ Argument.aggregates right
  | .truth _ => []

/-- The different aggregates that a clause evaluates, head first. -/
def clauseAggregates (clause : Clause) : List Aggregate :=
  (Argument.aggregatesOfAll clause.head.args ++ clause.body.flatMap Literal.aggregates).eraseDups

/-- The sites of a clause's values: the row of a body atom is bound to the atom's position, and the results of
the aggregates are rows of their own behind these. -/
structure Frame where
  sites : Sites
  atoms : List Atom
  aggregates : List Aggregate

/-- Record the variables that are arguments of an atom, given the number its row is bound to. -/
def addAtomSites (sites : Sites) (tuple : Nat) (atom : Atom) : Sites :=
  atom.args.zipIdx.foldl
    (fun sites (arg, column) =>
      match arg with
      | .var name => sites.addVariable name ⟨tuple, column⟩
      | _ => sites)
    sites

/-- A variable that is equated with an aggregate and has no other site is read at the aggregate's. -/
def addResultSite (sites : Sites) : Literal → Sites
  | .comparison .eq (.var name) (.aggregate function target body) =>
      bindResult name ⟨function, target, body⟩
  | .comparison .eq (.aggregate function target body) (.var name) =>
      bindResult name ⟨function, target, body⟩
  | _ => sites
where
  bindResult (name : String) (aggregate : Aggregate) : Sites :=
    if sites.defines name then sites
    else
      match sites.aggregate? aggregate with
      | some site => sites.addVariable name site
      | none => sites

/-- The frame of a clause. The relations of its positive atoms have to be declared. -/
def frameOf (plan : Plan) (clause : Clause) : Except LoweringError Frame := do
  let atoms := clause.positiveAtoms
  atoms.forM fun atom => discard (plan.requireRelation atom.relation)
  let aggregates := clauseAggregates clause
  let atomSites :=
    atoms.zipIdx.foldl (fun sites (atom, tuple) => addAtomSites sites tuple atom) Sites.empty
  let resultSites :=
    aggregates.zipIdx.foldl
      (fun sites (aggregate, position) => sites.setAggregate aggregate ⟨atoms.length + position, 0⟩)
      atomSites
  return ⟨clause.body.foldl addResultSite resultSites, atoms, aggregates⟩

/-- Insert the head. Unless the relation may simply take every row, the insertion is guarded so that a row is
derived only once: nothing is inserted if the relation has the row's logical columns already, and a relation
without columns is filled only if it is empty. -/
def insertGuarded (plan : Plan) (head : Atom) (logical auxiliary : List (Placed Expr))
    (incremental : Bool) : Build (Placed Op) := do
  let relation := head.relation.text
  let guard ←
    if decide (0 < plan.auxiliary) || incremental then do
      let copies ← copyExprs (logical.map Placed.tree)
      let check ← existenceCheck relation copies plan.auxiliary
      pure (some (← negation check))
    else if head.arity = 0 then do
      pure (some (← placeCond (.isEmpty relation)))
    else pure none
  let target := if incremental then freshName head.relation else relation
  let insertion ← placeOp (.insert target (logical ++ auxiliary))
  match guard with
  | some condition => filter condition insertion
  | none => return insertion

/-- The level of the row of each body atom. It stands in the second bookkeeping column. -/
def bodyLevels (atoms : List Atom) : Build (List (Placed Expr)) :=
  atoms.zipIdx.mapM fun (atom, tuple) => placeExpr (.element tuple (atom.arity + 1))

/-- One more than the highest level in the body, and zero without positive atoms. -/
def headLevel (atoms : List Atom) : Build (Placed Expr) := do
  match ← bodyLevels atoms with
  | [] => signed 0
  | [level] =>
      let one ← signed 1
      placeExpr (.operator .add [level, one])
  | levels =>
      let highest ← placeExpr (.operator .max levels)
      let one ← signed 1
      placeExpr (.operator .add [highest, one])

/-- The insertion of a rule's head. -/
def lowerInsertion (plan : Plan) (clause : Clause) (id : Nat) (frame : Frame) (incremental : Bool) :
    Lower (Placed Op) := do
  let logical ← lowerValues frame.sites clause.head.args
  let auxiliary ←
    match plan.strategy with
    | .seminaive => pure []
    | .provenance => do
        let number ← plan.clauseNumber clause id
        let rule ← signed (Int64.ofNat number)
        let level ← headLevel frame.atoms
        pure [rule, level]
  insertGuarded plan clause.head logical auxiliary incremental

/-- The columns of a body row that an explanation reports: all but the number of the rule. -/
def reportedColumns (plan : Plan) (atom : Atom) : List Nat :=
  match plan.strategy with
  | .seminaive => List.range atom.arity
  | .provenance => List.range atom.arity ++ [atom.arity + 1]

/-- The condition that a head argument has the value that the arguments of an explanation ask for. Wildcards,
constants and aggregates are not compared. -/
def matchHeadArgument (frame : Frame) (slots : Slots) (arg : Argument) : Lower (Option (Placed Cond)) := do
  let wanted ←
    match arg with
    | .var name =>
        match slots.slot? name with
        | some slot => pure (some (← placeExpr (.argument slot)))
        | none => throw (.missingSlot name)
    | .unnamed => pure none
    | .constant _ => pure none
    | _ =>
        if (Argument.aggregates arg).isEmpty then do
          let value ← lowerValue slots.sites arg
          pure (some (← slots.redirectExpr value))
        else pure none
  match wanted with
  | none => return none
  | some wanted =>
      let value ← lowerValue frame.sites arg
      return some (← compareEqual value wanted)

/-- The conditions that all body rows were derived below the level that the last argument asks for. -/
def levelConditions (plan : Plan) (atoms : List Atom) (slots : Slots) : Build (List (Placed Cond)) :=
  match plan.strategy with
  | .seminaive => return []
  | .provenance =>
      atoms.zipIdx.mapM fun (atom, tuple) => do
        let level ← placeExpr (.element tuple (atom.arity + 1))
        let limit ← placeExpr (.argument slots.size)
        placeCond (.compare .lt level limit)

/-- The answer of an explanation: the reported columns of the body rows and the values of the negated atoms. -/
def lowerAnswer (plan : Plan) (clause : Clause) (frame : Frame) (slots : Slots) : Lower (Placed Op) := do
  let rows ← frame.atoms.zipIdx.mapM fun (atom, tuple) =>
    (reportedColumns plan atom).mapM fun column => inArena (placeExpr (.element tuple column))
  let negated ← clause.negatedAtoms.mapM fun atom => lowerValues frame.sites atom.args
  let answer ← placeOp (.answer (rows.flatten ++ negated.flatten))
  let headConditions ← clause.head.args.filterMapM (matchHeadArgument frame slots)
  let conditions := headConditions ++ (← levelConditions plan frame.atoms slots)
  if conditions.isEmpty then return answer
  else filter (← conjunction conditions) answer

/-- Test the negations and constraints of a body, the first of them outermost. -/
def addConstraints (plan : Plan) (sites : Sites) (body : List Literal) (operation : Placed Op) :
    Lower (Placed Op) :=
  body.foldrM
    (fun literal operation => do
      match ← lowerConstraint plan sites literal with
      | some condition => filter condition operation
      | none => return operation)
    operation

/-- The name that an argument of an aggregate's atom defines: that of a variable not yet defined. -/
def introduced? (sites : Sites) : Argument → Option String
  | .var name => if sites.defines name then none else some name
  | _ => none

/-- The sites within an aggregate, and the comparisons that the arguments of its atom ask for. A variable that
is not defined outside is defined by its first occurrence. -/
def aggregateSites (tuple : Nat) : Sites → List (Argument × Nat) → Lower (Sites × List (Placed Cond))
  | sites, [] => return (sites, [])
  | sites, (.unnamed, _) :: rest => aggregateSites tuple sites rest
  | sites, (arg, column) :: rest =>
      match introduced? sites arg with
      | some name => aggregateSites tuple (sites.addVariable name ⟨tuple, column⟩) rest
      | none => do
          let here ← placeExpr (.element tuple column)
          let value ← lowerValue sites arg
          let comparison ← compareEqual here value
          let (sites, comparisons) ← aggregateSites tuple sites rest
          return (sites, comparison :: comparisons)

/-- Fold an aggregate and bind the result to `tuple`. It has to range over exactly one positive atom. -/
def lowerAggregate (plan : Plan) (sites : Sites) (aggregate : Aggregate) (tuple : Nat)
    (nested : Placed Op) : Lower (Placed Op) := do
  match aggregate.body.filterMap Literal.positiveAtom? with
  | [atom] =>
      let _ ← plan.requireRelation atom.relation
      let (sites, comparisons) ← aggregateSites tuple sites atom.args.zipIdx
      let constraints ← aggregate.body.filterMapM (lowerConstraint plan sites)
      let value ←
        match aggregate.target with
        | some target => some <$> lowerValue sites target
        | none => pure none
      let condition ← conjunction (comparisons ++ constraints)
      placeOp (.aggregate atom.relation.text tuple aggregate.function value condition nested)
  | _ => throw (.unsupportedAggregate aggregate.text)

/-- Evaluate the aggregates of a clause, the first of them outermost. -/
def addAggregates (plan : Plan) (frame : Frame) (operation : Placed Op) : Lower (Placed Op) :=
  frame.aggregates.zipIdx.foldrM
    (fun (aggregate, position) operation =>
      lowerAggregate plan frame.sites aggregate (frame.atoms.length + position) operation)
    operation

/-- The comparison that an argument of a scanned atom asks for. A wildcard asks for nothing, and neither does a
variable where it is defined. -/
def matchBodyArgument (sites : Sites) (tuple : Nat) (arg : Argument) (column : Nat) :
    Lower (Option (Placed Cond)) := do
  let definedHere : Bool :=
    match arg with
    | .unnamed => true
    | .var name => sites.definition? name == some ⟨tuple, column⟩
    | _ => false
  if definedHere then return none
  else
    let value ← lowerValue sites arg
    let here ← placeExpr (.element tuple column)
    return some (← compareEqual here value)

/-- Scan the relation of a body atom. -/
def addScan (version : Version) (sites : Sites) (atom : Atom) (tuple : Nat) (operation : Placed Op) :
    Lower (Placed Op) := do
  let conditions ← atom.args.zipIdx.filterMapM fun (arg, column) =>
    matchBodyArgument sites tuple arg column
  let nested ←
    if conditions.isEmpty then pure operation
    else do filter (← conjunction conditions) operation
  let relation := if version.readsDelta tuple then deltaName atom.relation else atom.relation.text
  placeOp (.scan relation tuple nested)

/-- Scan the relations of the body atoms, the first of them outermost. -/
def addScans (version : Version) (frame : Frame) (operation : Placed Op) : Lower (Placed Op) :=
  frame.atoms.zipIdx.foldrM
    (fun (atom, tuple) operation => addScan version frame.sites atom tuple operation) operation

/-- Attach the text of a clause to the query that inserts its rows, if the plan asks for it. -/
def withClauseText (plan : Plan) (purpose : Purpose) (clause : Clause) (statement : Placed Stmt) :
    Build (Placed Stmt) :=
  match purpose with
  | .insertion => if plan.debugInfo then placeStmt (.debug clause.text statement) else return statement
  | .explanation _ => return statement

/-- The query of a fact. -/
def lowerFact (plan : Plan) (clause : Clause) (id : Nat) : Lower (Placed Stmt) := do
  let logical ← lowerValues Sites.empty clause.head.args
  let auxiliary ←
    match plan.strategy with
    | .seminaive => pure []
    | .provenance => do
        let number ← plan.clauseNumber clause id
        let rule ← signed (Int64.ofNat number)
        let level ← signed 0
        pure [rule, level]
  query (← insertGuarded plan clause.head logical auxiliary false)

/-- The query of a rule. -/
def lowerRule (plan : Plan) (clause : Clause) (id : Nat) (purpose : Purpose) (version : Version) :
    Lower (Placed Stmt) := do
  let frame ← frameOf plan clause
  let middle ←
    match purpose with
    | .insertion => lowerInsertion plan clause id frame version.isIncremental
    | .explanation slots => lowerAnswer plan clause frame slots
  let constrained ← addConstraints plan frame.sites clause.body middle
  let aggregated ← addAggregates plan frame constrained
  query (← addScans version frame aggregated)

/-- The query of a clause. Its head relation has to be declared. -/
def lowerClause (plan : Plan) (clause : Clause) (id : Nat) (purpose : Purpose) (version : Version) :
    Lower (Placed Stmt) := do
  let _ ← plan.requireRelation clause.head.relation
  let statement ←
    if clause.isFact then lowerFact plan clause id
    else lowerRule plan clause id purpose version
  withClauseText plan purpose clause statement

/-- The query of a clause over complete relations. -/
def lowerComplete (plan : Plan) (clause : Clause) (id : Nat) (purpose : Purpose) : Lower (Placed Stmt) := do
  report .trace "translating non-recursive clause" [("clause", clause.text)]
  lowerClause plan clause id purpose .complete

/-- The positions of the body atoms whose relations are among the given ones. -/
def positionsWithin (clause : Clause) (relations : List Name) : List Nat :=
  (clause.positiveAtoms.zipIdx.filter (fun entry => relations.contains entry.1.relation)).map (·.2)

/-- One version of the query of a recursive clause: of the body atoms of its stratum, the one at position
`version` reads the previous round. -/
def lowerIncremental (plan : Plan) (clause : Clause) (id : Nat) (stratum : List Name) (version : Nat)
    (purpose : Purpose) : Lower (Placed Stmt) := do
  report .trace "translating recursive clause" [("clause", clause.text), ("version", toString version)]
  lowerClause plan clause id purpose (.incremental (positionsWithin clause stratum)[version]?)

end DatalogRam.Lowering
