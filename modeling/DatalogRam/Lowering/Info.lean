import DatalogRam.Datalog.Variables
import DatalogRam.Lowering.Relation

/-!
# Info relations

Under provenance every rule has a relation of its own with one row that describes the rule: its number, its head
arguments, and its positive and negated atoms, each as a text. Functors and aggregates are named in the order in
which they occur, the head first.
-/

namespace DatalogRam.Lowering

open Ram

/-- How many functors and aggregates have been named. -/
structure Named where
  functors : Nat
  aggregates : Nat

/-- Naming arguments may fail. -/
abbrev Describe := StateT Named (Except LoweringError)

def nameFunctor : Describe String :=
  modifyGet fun named =>
    ("functor_" ++ toString named.functors, { named with functors := named.functors + 1 })

def nameAggregate : Describe String :=
  modifyGet fun named =>
    ("agg_" ++ toString named.aggregates, { named with aggregates := named.aggregates + 1 })

def describeArgument : Argument → Describe String
  | .var name => return name
  | .constant value => return value.text
  | .unnamed => return "_"
  | .operator .. => nameFunctor
  | .external .. => nameFunctor
  | .aggregate .. => nameAggregate
  | .record args => throw (.unhandledArgument (Argument.record args).text)
  | .counter => throw (.unhandledArgument Argument.counter.text)

/-- The description of a literal. Constraints are not described. -/
def describeLiteral : Literal → Describe (Option String)
  | .positive relation args => do
      let names ← args.mapM describeArgument
      return some (",".intercalate (relation.text :: names))
  | .negative relation _ => return some ("!" ++ relation.text)
  | .comparison .. => return none
  | .truth _ => return none

/-- The description of a rule. -/
structure Description where
  number : Nat
  head : String
  literals : List String
  deriving DecidableEq, Repr

def describeClause (clause : Clause) (number : Nat) : Except LoweringError Description :=
  let describe : Describe Description := do
    let head ← clause.head.args.mapM describeArgument
    let literals ← clause.body.filterMapM describeLiteral
    return ⟨number, ",".intercalate head, literals⟩
  describe.run' ⟨0, 0⟩

/-- The name of the relation that describes a rule. -/
def infoName (head : Name) (number : Nat) : Name :=
  (head.append "@info").append (toString number)

/-- Whether a relation describes rules. -/
def isInfoName (name : Name) : Bool :=
  (name.first?.map (beginsWith "info")).getD false || name.segments.contains "@info"

/-- The table for a description with a given number of literals. -/
def infoTable (plan : Plan) (name : Name) (literalCount : Nat) : Table :=
  let names := ["clause_num", "head_vars"] ++ (List.range literalCount).map (fun position => "rel_" ++ toString position) ++
    auxiliaryNames plan.strategy
  { name := name.text
    arity := names.length
    auxiliary := plan.auxiliary
    columnNames := names
    columnTypes := ["i:number", "s:symbol"] ++ List.replicate literalCount "s:symbol" ++ auxiliaryTypes plan.strategy
    representation := .info }

/-- Declare the info relation of a rule and write the query that fills it. -/
def lowerInfo (plan : Plan) (clause : Clause) (id : Nat) : Lower (Placed Stmt) := do
  let number ← plan.clauseNumber clause id
  let description ← describeClause clause number
  let name := infoName clause.head.relation number
  report .trace "generating info fact" [("relation", name.text)]
  declareTable (infoTable plan name description.literals.length)
  let numberValue ← signed (Int64.ofNat number)
  let texts ← (description.head :: description.literals).mapM fun text => do
    let ordinal ← encodeSymbol text
    inArena (signed ordinal)
  let padding ← (List.replicate plan.auxiliary 0).mapM fun zero => inArena (signed zero)
  query (← placeOp (.insert name.text (numberValue :: texts ++ padding)))

end DatalogRam.Lowering
