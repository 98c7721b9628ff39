import DatalogRam.Datalog.Clause

/-!
# Programs

A program declares types and relations and lists clauses. A clause is known by its position in the list.
Several declarations of one relation are possible; the first one counts.
-/

namespace DatalogRam

/-- How a relation is stored. -/
inductive Representation where
  | standard
  | btree
  | brie
  /-- An equivalence relation. -/
  | eqrel
  /-- A description of a clause, for explanations. -/
  | info
  deriving DecidableEq, Repr

def Representation.text : Representation → String
  | standard => "Default"
  | btree => "Btree"
  | brie => "Brie"
  | eqrel => "Eqrel"
  | info => "Info"

/-- What a relation is for. -/
inductive Qualifier where
  | input
  | output
  /-- The relation was generated for a type. -/
  | type
  deriving DecidableEq, Repr

/-- A named and typed column. -/
structure Attribute where
  name : String
  type : Name
  deriving DecidableEq, Repr

/-- A declared relation. -/
structure Relation where
  name : Name
  attributes : List Attribute
  representation : Representation
  qualifiers : List Qualifier
  deriving DecidableEq, Repr

def Relation.arity (relation : Relation) : Nat :=
  relation.attributes.length

def Relation.hasQualifier (relation : Relation) (qualifier : Qualifier) : Bool :=
  relation.qualifiers.contains qualifier

/-- What a type is declared to be. -/
inductive TypeDefinition where
  | subset (base : Name)
  | synonym (base : Name)
  | equivalence (base : Name)
  | order (base : Name)
  | union (members : List Name)
  | record (fields : List Attribute)
  deriving DecidableEq, Repr

/-- A declared type. -/
structure TypeDecl where
  name : Name
  definition : TypeDefinition
  deriving DecidableEq, Repr

/-- A source program. -/
structure Program where
  types : List TypeDecl
  relations : List Relation
  clauses : List Clause

namespace Program

/-- The first declaration of a relation. -/
def relation? (program : Program) (name : Name) : Option Relation :=
  program.relations.find? (fun relation => relation.name == name)

def declares (program : Program) (name : Name) : Bool :=
  (program.relation? name).isSome

def relationNames (program : Program) : List Name :=
  program.relations.map Relation.name

def clause? (program : Program) (id : Nat) : Option Clause :=
  program.clauses[id]?

/-- All clauses with their positions. -/
def numberedClauses (program : Program) : List (Clause × Nat) :=
  program.clauses.zipIdx

/-- The clauses with the given head relation, with their positions. -/
def clausesOf (program : Program) (name : Name) : List (Clause × Nat) :=
  program.numberedClauses.filter (fun entry => entry.1.head.relation == name)

end Program

end DatalogRam
