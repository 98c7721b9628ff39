import Mathlib.Data.List.Forall2
import DatalogRam.Lowering.Clause
import DatalogRam.Proofs.Ram.Building

/-!
# The code of clauses

The trees that the lowering of a clause writes, as functions of the plan, the clause and the ordinals of texts.
They leave out the arena, the table of symbols and the reported events, and have no result where the lowering
fails.
-/

namespace DatalogRam.Lowering

open Ram

section Code

variable (ordinal : String → Int64)

def constantCode : Constant → Expr
  | .number value => .signed value
  | .unsigned value => .unsigned value
  | .float value => .float value
  | .string text => .signed (ordinal text)
  | .nil => .signed 0

def siteCode (site : Site) : Expr :=
  .element site.tuple site.column

mutual

def valueCode (sites : Sites) : Argument → Option Expr
  | .var name => (sites.definition? name).map siteCode
  | .unnamed => some .undefined
  | .constant value => some (constantCode ordinal value)
  | .operator op args => (valueCodes sites args).map (.operator op)
  | .external name args => (valueCodes sites args).map (.external name)
  | .aggregate function target body => (sites.aggregate? ⟨function, target, body⟩).map siteCode
  | .record args => (valueCodes sites args).map .pack
  | .counter => some .autoIncrement

def valueCodes (sites : Sites) : List Argument → Option (List Expr)
  | [] => some []
  | arg :: args => do
      let value ← valueCode sites arg
      let values ← valueCodes sites args
      return value :: values

end

/-- An operation that runs if all conditions hold. -/
def guardedBy (conditions : List Cond) (operation : Op) : Op :=
  if conditions.isEmpty then operation else .filter (allOf conditions) operation

def existence (relation : String) (values : List Expr) (auxiliary : Nat) : Cond :=
  .holds relation (values ++ List.replicate auxiliary .undefined)

def constraintCode (plan : Plan) (sites : Sites) : Literal → Option (Option Cond)
  | .positive .. => some none
  | .negative relation args => do
      let _ ← plan.program.relation? relation
      let values ← valueCodes ordinal sites args
      return some (.not (existence relation.text values plan.auxiliary))
  | .comparison op left right => do
      let left ← valueCode ordinal sites left
      let right ← valueCode ordinal sites right
      return some (.compare op left right)
  | .truth true => some (some .true)
  | .truth false => some (some .false)

/-- What has to hold before given values are inserted. -/
def guardCode (plan : Plan) (head : Atom) (logical : List Expr) (incremental : Bool) : Option Cond :=
  if decide (0 < plan.auxiliary) || incremental then
    some (.not (existence head.relation.text logical plan.auxiliary))
  else if head.arity = 0 then some (.isEmpty head.relation.text)
  else none

def Op.underGuard (operation : Op) : Option Cond → Op
  | some condition => .filter condition operation
  | none => operation

/-- The insertion of given values, with its guard. -/
def insertionCode (plan : Plan) (head : Atom) (logical auxiliary : List Expr) (incremental : Bool) : Op :=
  let target := if incremental then freshName head.relation else head.relation.text
  Op.underGuard (.insert target (logical ++ auxiliary)) (guardCode plan head logical incremental)

/-- The levels of the rows of atoms. -/
def levelCodes (atoms : List Atom) : List Expr :=
  atoms.zipIdx.map fun entry => .element entry.2 (entry.1.arity + 1)

def headLevelCode (atoms : List Atom) : Expr :=
  match levelCodes atoms with
  | [] => .signed 0
  | [level] => .operator .add [level, .signed 1]
  | levels => .operator .add [.operator .max levels, .signed 1]

/-- The bookkeeping values of a clause's rows, given the code of their level. -/
def bookkeeping (plan : Plan) (clause : Clause) (id : Nat) (level : Expr) : Option (List Expr) :=
  match plan.strategy with
  | .seminaive => some []
  | .provenance => do
      let number ← (plan.clauseNumber clause id).toOption
      return [.signed (Int64.ofNat number), level]

/-- The insertion of a clause's head, given where its values are read. -/
def headCode (plan : Plan) (clause : Clause) (id : Nat) (sites : Sites) (level : Expr)
    (incremental : Bool) : Option Op := do
  let logical ← valueCodes ordinal sites clause.head.args
  let auxiliary ← bookkeeping plan clause id level
  return insertionCode plan clause.head logical auxiliary incremental

/-- The code of an argument over the arguments of a subroutine. -/
def redirectedCode (slots : Slots) (arg : Argument) : Option Expr := do
  let value ← valueCode ordinal slots.sites arg
  (value.replace slots.redirect).toOption

/-- What the value of a head argument is compared with: nothing if it is a wildcard, a constant or an aggregate. -/
def wantedCode (slots : Slots) : Argument → Option (Option Expr)
  | .var name => (slots.slot? name).map fun slot => some (.argument slot)
  | .unnamed => some none
  | .constant _ => some none
  | arg =>
      if (Argument.aggregates arg).isEmpty then (redirectedCode ordinal slots arg).map some else some none

/-- The comparison of an argument with what is wanted for it. -/
def compareWantedCode (sites : Sites) (arg : Argument) : Option Expr → Option (Option Cond)
  | none => some none
  | some wanted => (valueCode ordinal sites arg).map fun value => some (.compare .eq value wanted)

/-- The condition of a head argument. -/
def matchHeadCode (frame : Frame) (slots : Slots) (arg : Argument) : Option (Option Cond) := do
  compareWantedCode ordinal frame.sites arg (← wantedCode ordinal slots arg)

def levelConditionCodes (plan : Plan) (atoms : List Atom) (slots : Slots) : List Cond :=
  match plan.strategy with
  | .seminaive => []
  | .provenance =>
      atoms.zipIdx.map fun entry =>
        .compare .lt (.element entry.2 (entry.1.arity + 1)) (.argument slots.size)

/-- The reported columns of the rows of atoms. -/
def reportedCodes (plan : Plan) (atoms : List Atom) : List (List Expr) :=
  atoms.zipIdx.map fun entry => (reportedColumns plan entry.1).map fun column => .element entry.2 column

/-- The answer of an explanation. -/
def answerCode (plan : Plan) (clause : Clause) (frame : Frame) (slots : Slots) : Option Op := do
  let negated ← clause.negatedAtoms.mapM fun atom => valueCodes ordinal frame.sites atom.args
  let headConditions ← clause.head.args.filterMapM (matchHeadCode ordinal frame slots)
  return guardedBy (headConditions ++ levelConditionCodes plan frame.atoms slots)
    (.answer ((reportedCodes plan frame.atoms).flatten ++ negated.flatten))

/-- An operation under the negations and constraints of a body. -/
def constrainedCode (plan : Plan) (sites : Sites) (body : List Literal) (operation : Op) : Option Op :=
  body.foldrM
    (fun literal operation =>
      (constraintCode ordinal plan sites literal).map (Op.underGuard operation))
    operation

def aggregateSitesCode (tuple : Nat) : Sites → List (Argument × Nat) → Option (Sites × List Cond)
  | sites, [] => some (sites, [])
  | sites, (.unnamed, _) :: rest => aggregateSitesCode tuple sites rest
  | sites, (arg, column) :: rest =>
      match introduced? sites arg with
      | some name => aggregateSitesCode tuple (sites.addVariable name ⟨tuple, column⟩) rest
      | none => do
          let value ← valueCode ordinal sites arg
          let (sites, comparisons) ← aggregateSitesCode tuple sites rest
          return (sites, .compare .eq (.element tuple column) value :: comparisons)

def targetCode (sites : Sites) : Option Argument → Option (Option Expr)
  | none => some none
  | some target => (valueCode ordinal sites target).map some

def aggregateCode (plan : Plan) (sites : Sites) (aggregate : Aggregate) (tuple : Nat) (nested : Op) :
    Option Op :=
  match aggregate.body.filterMap Literal.positiveAtom? with
  | [atom] => do
      let _ ← plan.program.relation? atom.relation
      let (sites, comparisons) ← aggregateSitesCode ordinal tuple sites atom.args.zipIdx
      let constraints ← aggregate.body.filterMapM (constraintCode ordinal plan sites)
      let value ← targetCode ordinal sites aggregate.target
      return .aggregate atom.relation.text tuple aggregate.function value
        (allOf (comparisons ++ constraints)) nested
  | _ => none

def aggregatedCode (plan : Plan) (frame : Frame) (operation : Op) : Option Op :=
  frame.aggregates.zipIdx.foldrM
    (fun entry operation =>
      aggregateCode ordinal plan frame.sites entry.1 (frame.atoms.length + entry.2) operation)
    operation

/-- Whether an argument asks for nothing where it stands. -/
def isFree (sites : Sites) (tuple column : Nat) : Argument → Bool
  | .unnamed => true
  | .var name => sites.definition? name == some ⟨tuple, column⟩
  | _ => false

def matchBodyCode (sites : Sites) (tuple : Nat) (entry : Argument × Nat) : Option (Option Cond) :=
  if isFree sites tuple entry.2 entry.1 then some none
  else
    (valueCode ordinal sites entry.1).map fun value =>
      some (.compare .eq (.element tuple entry.2) value)

/-- The table in which a version reads the atom at a position. -/
def Version.source (version : Version) (position : Nat) (relation : Name) : String :=
  if version.readsDelta position then deltaName relation else relation.text

def scanCode (version : Version) (sites : Sites) (atom : Atom) (tuple : Nat) (operation : Op) :
    Option Op := do
  let conditions ← atom.args.zipIdx.filterMapM (matchBodyCode ordinal sites tuple)
  return .scan (version.source tuple atom.relation) tuple (guardedBy conditions operation)

def scannedCode (version : Version) (frame : Frame) (operation : Op) : Option Op :=
  frame.atoms.zipIdx.foldrM
    (fun entry operation => scanCode ordinal version frame.sites entry.1 entry.2 operation) operation

/-- The query of a rule, given what its middle does. -/
def ruleCode (plan : Plan) (clause : Clause) (version : Version) (middle : Frame → Option Op) :
    Option Stmt := do
  let frame ← (frameOf plan clause).toOption
  let inner ← middle frame
  let constrained ← constrainedCode ordinal plan frame.sites clause.body inner
  let aggregated ← aggregatedCode ordinal plan frame constrained
  let scanned ← scannedCode ordinal version frame aggregated
  return .query scanned

def factCode (plan : Plan) (clause : Clause) (id : Nat) : Option Stmt := do
  let insertion ← headCode ordinal plan clause id .empty (.signed 0) false
  return .query insertion

/-- The query of a clause, without its text. -/
def clauseQuery (plan : Plan) (clause : Clause) (id : Nat) (version : Version) : Option Stmt :=
  if clause.isFact then factCode ordinal plan clause id
  else
    ruleCode ordinal plan clause version fun frame =>
      headCode ordinal plan clause id frame.sites (headLevelCode frame.atoms) version.isIncremental

/-- A query with the text of its clause, if the plan asks for it. -/
def withText (plan : Plan) (clause : Clause) (statement : Stmt) : Stmt :=
  if plan.debugInfo then .debug clause.text statement else statement

def clauseCode (plan : Plan) (clause : Clause) (id : Nat) (version : Version) : Option Stmt := do
  let _ ← plan.program.relation? clause.head.relation
  (clauseQuery ordinal plan clause id version).map (withText plan clause)

/-- The query that explains a rule. -/
def explanationCode (plan : Plan) (clause : Clause) (slots : Slots) : Option Stmt := do
  let _ ← plan.program.relation? clause.head.relation
  ruleCode ordinal plan clause .complete fun frame => answerCode ordinal plan clause frame slots

end Code

section Parts

variable {ordinal : String → Int64} {plan : Plan} {clause : Clause} {id : Nat} {version : Version} {statement : Stmt}

theorem valueCodes_cons_eq_some {sites : Sites} {arg : Argument} {args : List Argument} {values : List Expr}
    (codes : valueCodes ordinal sites (arg :: args) = some values) :
    ∃ first others, valueCode ordinal sites arg = some first ∧ valueCodes ordinal sites args = some others ∧
      values = first :: others := by
  obtain ⟨first, isFirst, codes⟩ := Option.bind_eq_some_iff.1 codes
  obtain ⟨others, areOthers, same⟩ := Option.bind_eq_some_iff.1 codes
  exact ⟨first, others, isFirst, areOthers, (Option.some.inj same).symm⟩

/-- Each argument has code of its own. -/
theorem forall₂_of_valueCodes {sites : Sites} {args : List Argument} {values : List Expr}
    (codes : valueCodes ordinal sites args = some values) :
    List.Forall₂ (fun arg value => valueCode ordinal sites arg = some value) args values := by
  induction args generalizing values with
  | nil =>
      cases codes
      exact .nil
  | cons arg args ih =>
      obtain ⟨first, others, isFirst, areOthers, rfl⟩ := valueCodes_cons_eq_some codes
      exact .cons isFirst (ih areOthers)

theorem constraintCode_negative_eq_some {sites : Sites} {relation : Name} {args : List Argument} {found : Option Cond}
    (code : constraintCode ordinal plan sites (.negative relation args) = some found) :
    plan.program.declares relation = true ∧ ∃ values, valueCodes ordinal sites args = some values ∧
      found = some (.not (existence relation.text values plan.auxiliary)) := by
  obtain ⟨_, isRelation, code⟩ := Option.bind_eq_some_iff.1 code
  obtain ⟨values, areValues, same⟩ := Option.bind_eq_some_iff.1 code
  exact ⟨by rw [Program.declares, isRelation]; rfl, values, areValues, (Option.some.inj same).symm⟩

theorem constraintCode_comparison_eq_some {sites : Sites} {op : Comparison} {left right : Argument}
    {found : Option Cond} (code : constraintCode ordinal plan sites (.comparison op left right) = some found) :
    ∃ first second, valueCode ordinal sites left = some first ∧ valueCode ordinal sites right = some second ∧
      found = some (.compare op first second) := by
  obtain ⟨first, isFirst, code⟩ := Option.bind_eq_some_iff.1 code
  obtain ⟨second, isSecond, same⟩ := Option.bind_eq_some_iff.1 code
  exact ⟨first, second, isFirst, isSecond, (Option.some.inj same).symm⟩

/-- The code of an aggregate ranges over the rows of the one positive atom in its body. -/
theorem aggregateCode_eq_some {sites : Sites} {aggregate : Aggregate} {tuple : Nat} {nested operation : Op}
    (code : aggregateCode ordinal plan sites aggregate tuple nested = some operation) :
    ∃ atom inner comparisons constraints value,
      aggregate.body.filterMap Literal.positiveAtom? = [atom] ∧
      plan.program.declares atom.relation = true ∧
      aggregateSitesCode ordinal tuple sites atom.args.zipIdx = some (inner, comparisons) ∧
      aggregate.body.filterMapM (constraintCode ordinal plan inner) = some constraints ∧
      targetCode ordinal inner aggregate.target = some value ∧
      operation = .aggregate atom.relation.text tuple aggregate.function value (allOf (comparisons ++ constraints))
        nested := by
  rw [aggregateCode] at code
  split at code
  · next atom single =>
      obtain ⟨_, isRelation, code⟩ := Option.bind_eq_some_iff.1 code
      obtain ⟨⟨inner, comparisons⟩, isSites, code⟩ := Option.bind_eq_some_iff.1 code
      obtain ⟨constraints, areConstraints, code⟩ := Option.bind_eq_some_iff.1 code
      obtain ⟨value, isValue, same⟩ := Option.bind_eq_some_iff.1 code
      have declared : plan.program.declares atom.relation = true := by
        rw [Program.declares, isRelation]
        rfl
      exact ⟨atom, inner, comparisons, constraints, value, single, declared, isSites, areConstraints, isValue,
        (Option.some.inj same).symm⟩
  · cases code

theorem auxiliary_of_seminaive (isSeminaive : plan.strategy = .seminaive) : plan.auxiliary = 0 := by
  rw [Plan.auxiliary, isSeminaive]
  rfl

theorem auxiliary_of_provenance (isProvenance : plan.strategy = .provenance) : plan.auxiliary = 2 := by
  rw [Plan.auxiliary, isProvenance]
  rfl

/-- The bookkeeping of a row is the number of a rule and a level, or nothing. -/
theorem bookkeeping_eq_some {level : Expr} {values : List Expr}
    (code : bookkeeping plan clause id level = some values) :
    values.length = plan.auxiliary ∧
      ∀ value ∈ values, (∃ number, value = .signed number) ∨ plan.strategy = .provenance ∧ value = level := by
  rw [bookkeeping] at code
  split at code
  · next isSeminaive =>
      cases code
      rw [auxiliary_of_seminaive isSeminaive]
      exact ⟨rfl, fun _ member => absurd member List.not_mem_nil⟩
  · next isProvenance =>
      obtain ⟨number, _, same⟩ := Option.bind_eq_some_iff.1 code
      cases same
      rw [auxiliary_of_provenance isProvenance]
      exact ⟨rfl, List.forall_mem_cons.2 ⟨.inl ⟨_, rfl⟩, List.forall_mem_singleton.2 (.inr ⟨isProvenance, rfl⟩)⟩⟩

theorem headCode_eq_some {sites : Sites} {level : Expr} {incremental : Bool} {operation : Op}
    (code : headCode ordinal plan clause id sites level incremental = some operation) :
    ∃ logical auxiliary, valueCodes ordinal sites clause.head.args = some logical ∧
      bookkeeping plan clause id level = some auxiliary ∧
      operation = insertionCode plan clause.head logical auxiliary incremental := by
  obtain ⟨logical, areLogical, code⟩ := Option.bind_eq_some_iff.1 code
  obtain ⟨auxiliary, isAuxiliary, same⟩ := Option.bind_eq_some_iff.1 code
  exact ⟨logical, auxiliary, areLogical, isAuxiliary, (Option.some.inj same).symm⟩

theorem matchHeadCode_eq_some {frame : Frame} {slots : Slots} {arg : Argument} {condition : Cond}
    (code : matchHeadCode ordinal frame slots arg = some (some condition)) :
    ∃ wanted value, wantedCode ordinal slots arg = some (some wanted) ∧
      valueCode ordinal frame.sites arg = some value ∧ condition = .compare .eq value wanted := by
  obtain ⟨wanted, isWanted, compared⟩ := Option.bind_eq_some_iff.1 code
  cases wanted with
  | none => cases compared
  | some wanted =>
      obtain ⟨value, isValue, same⟩ := Option.map_eq_some_iff.1 compared
      exact ⟨wanted, value, isWanted, isValue, (Option.some.inj same).symm⟩

/-- The answer of an explanation stands under the conditions on the head and on the levels. -/
theorem answerCode_eq_some {frame : Frame} {slots : Slots} {operation : Op}
    (code : answerCode ordinal plan clause frame slots = some operation) :
    ∃ negated conditions,
      clause.negatedAtoms.mapM (fun atom => valueCodes ordinal frame.sites atom.args) = some negated ∧
      clause.head.args.filterMapM (matchHeadCode ordinal frame slots) = some conditions ∧
      operation = guardedBy (conditions ++ levelConditionCodes plan frame.atoms slots)
        (.answer ((reportedCodes plan frame.atoms).flatten ++ negated.flatten)) := by
  obtain ⟨negated, areNegated, code⟩ := Option.bind_eq_some_iff.1 code
  obtain ⟨conditions, areConditions, same⟩ := Option.bind_eq_some_iff.1 code
  exact ⟨negated, conditions, areNegated, areConditions, (Option.some.inj same).symm⟩

/-- The query of a rule is built around its middle: conditions, then aggregates, then scans. -/
theorem ruleCode_eq_some {middle : Frame → Option Op}
    (code : ruleCode ordinal plan clause version middle = some statement) :
    ∃ frame inner constrained aggregated operation,
      (frameOf plan clause).toOption = some frame ∧
      middle frame = some inner ∧
      constrainedCode ordinal plan frame.sites clause.body inner = some constrained ∧
      aggregatedCode ordinal plan frame constrained = some aggregated ∧
      scannedCode ordinal version frame aggregated = some operation ∧
      statement = .query operation := by
  obtain ⟨frame, isFrame, code⟩ := Option.bind_eq_some_iff.1 code
  obtain ⟨inner, isInner, code⟩ := Option.bind_eq_some_iff.1 code
  obtain ⟨constrained, isConstrained, code⟩ := Option.bind_eq_some_iff.1 code
  obtain ⟨aggregated, isAggregated, code⟩ := Option.bind_eq_some_iff.1 code
  obtain ⟨operation, isScanned, same⟩ := Option.bind_eq_some_iff.1 code
  exact ⟨frame, inner, constrained, aggregated, operation, isFrame, isInner, isConstrained, isAggregated, isScanned,
    (Option.some.inj same).symm⟩

theorem factCode_eq_some (code : factCode ordinal plan clause id = some statement) :
    ∃ operation, headCode ordinal plan clause id .empty (.signed 0) false = some operation ∧
      statement = .query operation := by
  obtain ⟨operation, isInsertion, same⟩ := Option.bind_eq_some_iff.1 code
  exact ⟨operation, isInsertion, (Option.some.inj same).symm⟩

theorem clauseCode_eq_some (code : clauseCode ordinal plan clause id version = some statement) :
    plan.program.declares clause.head.relation = true ∧
      ∃ query, clauseQuery ordinal plan clause id version = some query ∧ statement = withText plan clause query := by
  obtain ⟨relation, isRelation, code⟩ := Option.bind_eq_some_iff.1 code
  obtain ⟨query, isQuery, same⟩ := Option.map_eq_some_iff.1 code
  exact ⟨by rw [Program.declares, isRelation]; rfl, query, isQuery, same.symm⟩

/-- The query of a clause and the text of the clause make one query. -/
theorem exists_query_of_clauseCode (code : clauseCode ordinal plan clause id version = some statement) :
    ∃ operation, statement = withText plan clause (.query operation) := by
  obtain ⟨_, query, isQuery, rfl⟩ := clauseCode_eq_some code
  rw [clauseQuery] at isQuery
  split at isQuery
  · obtain ⟨operation, _, rfl⟩ := factCode_eq_some isQuery
    exact ⟨operation, rfl⟩
  · obtain ⟨_, _, _, _, operation, _, _, _, _, _, rfl⟩ := ruleCode_eq_some isQuery
    exact ⟨operation, rfl⟩

end Parts

end DatalogRam.Lowering
