import DatalogRam.Analysis.Strata

/-!
# When relations expire

The schedule has one step for each stratum. A relation expires after the last step that computes or reads it, unless it
is an output of the program. The steps are gone through twice: forward to collect what each of them touches, and then
from the last one back. On the way back a relation is met first at its last use, and is alive from there on.
-/

namespace DatalogRam.Analysis

/-- The relations that a stratum computes or reads, in the order in which they are first met. -/
def touched (program : Program) (stratum : Stratum) : List Name :=
  stratum.relations.foldl
    (fun met relation => (program.clausesOf relation).foldl (fun met entry => entry.1.reads.foldl touch met) met)
    stratum.relations

def isOutput (program : Program) (name : Name) : Bool :=
  match program.relation? name with
  | some relation => relation.hasQualifier .output
  | none => false

/-- What is known at a step on the way back. -/
structure Expiry where
  /-- The relations that have been met. -/
  alive : List Name
  /-- The relations that expire after the step. -/
  expired : List Name

/-- Meet a relation that the step touches. If it was not alive before, it expires here, unless it is an output. -/
def Expiry.meet (program : Program) (expiry : Expiry) (name : Name) : Expiry :=
  if expiry.alive.contains name then expiry
  else
    { alive := name :: expiry.alive
      expired := if isOutput program name then expiry.expired else expiry.expired ++ [name] }

/-- Where the way back stands. -/
structure Retreat where
  alive : List Name
  /-- What expires after each of the steps that have been passed. -/
  expirations : List (List Name)

/-- Go back over a step that touches the given relations. -/
def Retreat.pass (program : Program) (used : List Name) (retreat : Retreat) : Retreat :=
  let expiry := used.foldl (Expiry.meet program) ⟨retreat.alive, []⟩
  ⟨expiry.alive, expiry.expired :: retreat.expirations⟩

/-- For each stratum, the relations that expire after it. -/
def expirations (program : Program) (strata : List Stratum) : List (List Name) :=
  ((strata.map (touched program)).foldr (Retreat.pass program) ⟨[], []⟩).expirations

/-- A step of an evaluation. -/
structure Step where
  /-- The relations that the step computes. -/
  computed : List Name
  /-- The relations that are not needed after it. -/
  expired : List Name
  deriving DecidableEq, Repr

def schedule (program : Program) (strata : List Stratum) : List Step :=
  (strata.zip (expirations program strata)).map fun (stratum, expired) => ⟨stratum.relations, expired⟩

end DatalogRam.Analysis
