import DatalogRam.Datalog.Program

/-!
# Kinds of types

Every type is represented as one of five kinds of values. A derived type has the kind of its base, a record
type is a record, and a union has the kind that all its members share. Types are known by the text of their
names, and the last of several declarations of one name counts.
-/

namespace DatalogRam.Analysis

/-- How the values of a type are represented. -/
inductive Kind where
  | signed
  | unsigned
  | float
  | symbol
  | record
  deriving DecidableEq, Repr

namespace Kind

def text : Kind → String
  | signed => "Signed"
  | unsigned => "Unsigned"
  | float => "Float"
  | symbol => "Symbol"
  | record => "Record"

/-- The letter that marks the kind in the type of a column. -/
def letter : Kind → String
  | signed => "i"
  | unsigned => "u"
  | float => "f"
  | symbol => "s"
  | record => "r"

end Kind

/-- Why types could not be resolved. -/
inductive TypeError where
  | undeclared (name : String)
  | cyclic (name : String)
  | mixedUnion (name : String)
  deriving DecidableEq, Repr

def TypeError.message : TypeError → String
  | undeclared name => "undeclared type '" ++ name ++ "'"
  | cyclic name => "type '" ++ name ++ "' is defined in terms of itself"
  | mixedUnion name => "union type '" ++ name ++ "' mixes different primitive kinds"

/-- The kinds of types, by the texts of their names. -/
abbrev Kinds := List (String × Kind)

def primitiveKinds : Kinds :=
  [("number", .signed), ("unsigned", .unsigned), ("float", .float), ("symbol", .symbol)]

/-- The definition that counts for a name. -/
def definition? (types : List TypeDecl) (name : String) : Option TypeDefinition :=
  (types.filter (fun type => type.name.text == name)).getLast?.map TypeDecl.definition

/-- Resolve the members of the union `union` in order and compare each with the first, whose kind is `shared`.
The first member that differs ends the search. -/
def resolveMembers (resolve : Kinds → String → Except TypeError (Kind × Kinds)) (union : String) :
    Option Kind → Kinds → List String → Except TypeError (Kind × Kinds)
  | none, _, [] => .error (.mixedUnion union)
  | some shared, known, [] => .ok (shared, known)
  | shared, known, name :: names => do
      let (kind, known) ← resolve known name
      if shared.all (· == kind) then resolveMembers resolve union (some kind) known names
      else .error (.mixedUnion union)

/-- The kind of a name, and all kinds known by then. A name whose resolution is under way is cyclic. Names
under way are distinct declared ones, so `depth` never runs out if it is the number of declarations. -/
def resolve (types : List TypeDecl) :
    Nat → List String → Kinds → String → Except TypeError (Kind × Kinds)
  | depth, underWay, known, name =>
      match known.lookup name with
      | some kind => .ok (kind, known)
      | none =>
          if underWay.contains name then .error (.cyclic name)
          else
            match definition? types name, depth with
            | none, _ => .error (.undeclared name)
            | some _, 0 => .error (.cyclic name)
            | some definition, depth + 1 => do
                let inner := resolve types depth (name :: underWay)
                let (kind, known) ← match definition with
                  | .subset base => inner known base.text
                  | .synonym base => inner known base.text
                  | .equivalence base => inner known base.text
                  | .order base => inner known base.text
                  | .record _ => .ok (.record, known)
                  | .union members => resolveMembers inner name none known (members.map Name.text)
                return (kind, (name, kind) :: known)

/-- The kinds of the primitive and of all declared types. -/
def resolveTypes (types : List TypeDecl) : Except TypeError Kinds :=
  types.foldlM
    (fun known type => do
      let (_, known) ← resolve types types.length [] known type.name.text
      return known)
    primitiveKinds

/-- The kind of a type. -/
def Kinds.kind? (kinds : Kinds) (name : Name) : Option Kind :=
  kinds.lookup name.text

/-- The type of a column: the letter of its kind and its name. -/
def Kinds.columnType (kinds : Kinds) (name : Name) : Except TypeError String :=
  match kinds.kind? name with
  | some kind => .ok (kind.letter ++ ":" ++ name.text)
  | none => .error (.undeclared name.text)

end DatalogRam.Analysis
