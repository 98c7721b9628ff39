import DatalogRam.Datalog.Argument

/-!
# Where values are read

While a clause is evaluated, the value of a variable or an aggregate is a column of a row that is bound to a
number. A variable may stand at several such sites. The first one recorded defines it; the others have to be
compared with it.
-/

namespace DatalogRam.Lowering

/-- A column of the row that is bound to `tuple`. -/
structure Site where
  tuple : Nat
  column : Nat
  deriving DecidableEq, Repr

/-- The sites of variables, in the order in which the variables were first recorded, and of aggregates. -/
structure Sites where
  named : List (String × List Site)
  aggregates : List (Aggregate × Site)

namespace Sites

def empty : Sites :=
  ⟨[], []⟩

/-- Record a site behind those that a variable already has. -/
def addTo (name : String) (site : Site) : List (String × List Site) → List (String × List Site)
  | [] => [(name, [site])]
  | entry :: rest =>
      if entry.1 = name then (name, entry.2 ++ [site]) :: rest else entry :: addTo name site rest

def addVariable (sites : Sites) (name : String) (site : Site) : Sites :=
  { sites with named := addTo name site sites.named }

/-- The site that defines a variable. -/
def definition? (sites : Sites) (name : String) : Option Site :=
  (sites.named.lookup name).bind List.head?

def defines (sites : Sites) (name : String) : Bool :=
  (sites.named.lookup name).isSome

/-- Record where the value of an aggregate is read, in place of an earlier site. -/
def setAggregate (sites : Sites) (aggregate : Aggregate) (site : Site) : Sites :=
  { sites with aggregates := (aggregate, site) :: sites.aggregates }

def aggregate? (sites : Sites) (aggregate : Aggregate) : Option Site :=
  sites.aggregates.lookup aggregate

end Sites

end DatalogRam.Lowering
