import DatalogRam.Lowering.Draft
import DatalogRam.Lowering.Plan

/-!
# Tables of relations

A relation is kept in a table under its own name. A relation that is evaluated in a loop has two more tables:
one for the rows that the previous round found and one for those that the current round finds.
-/

namespace DatalogRam.Lowering

open Ram

def deltaName (name : Name) : String :=
  "@delta_" ++ name.text

def freshName (name : Name) : String :=
  "@new_" ++ name.text

/-- The names of the bookkeeping columns of a strategy. -/
def auxiliaryNames : Strategy → List String
  | .seminaive => []
  | .provenance => [ruleColumn, levelColumn]

/-- The types of the bookkeeping columns of a strategy. -/
def auxiliaryTypes : Strategy → List String
  | .seminaive => []
  | .provenance => ["i:number", "i:number"]

/-- The types of the columns for the attributes of a relation. -/
def attributeTypes (plan : Plan) : List Attribute → Except LoweringError (List String)
  | [] => .ok []
  | first :: rest =>
      match plan.kinds.columnType first.type with
      | .error error => .error (.type error)
      | .ok type => (attributeTypes plan rest).map (type :: ·)

/-- The table that keeps a relation under a given name, with types for its attributes. There are as many columns as
they have names. -/
def relationTable (strategy : Strategy) (relation : Relation) (name : String) (types : List String) : Table :=
  let names := relation.attributes.map Attribute.name ++ auxiliaryNames strategy
  { name := name
    arity := names.length
    auxiliary := strategy.auxiliary
    columnNames := names
    columnTypes := types ++ auxiliaryTypes strategy
    representation := relation.representation }

def tableFor (plan : Plan) (relation : Relation) (name : String) : Except LoweringError Table :=
  (attributeTypes plan relation.attributes).map (relationTable plan.strategy relation name)

/-- Declare the tables of a relation. -/
def declareRelation (plan : Plan) (relation : Relation) : Lower Unit := do
  declareTable (← tableFor plan relation relation.name.text)
  if plan.isRecursiveRelation relation.name then
    declareTable (← tableFor plan relation (deltaName relation.name))
    declareTable (← tableFor plan relation (freshName relation.name))

end DatalogRam.Lowering
