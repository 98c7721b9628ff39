import DatalogRam.Analysis.Components
import DatalogRam.Analysis.Reads

/-!
# Strata

Relations that read each other, directly or through others, are evaluated together. Each such group is a
stratum, and the strata are listed so that a stratum reads only itself and earlier ones.
-/

namespace DatalogRam.Analysis

/-- Relations that are evaluated together. -/
structure Stratum where
  /-- The relations of the stratum, in the order of their declarations. -/
  relations : List Name
  /-- Whether some relation of the stratum reads, directly or through others, itself. -/
  recursive : Bool
  /-- The other strata that this one reads, in ascending order. -/
  dependencies : List Nat
  deriving DecidableEq, Repr

/-- The last position of an element. -/
def lastPosition? {α : Type} [DecidableEq α] (elements : List α) (element : α) : Option Nat :=
  (elements.zipIdx.filter (fun entry => entry.1 == element)).getLast?.map (·.2)

/-- Note the declared relations that a clause of a relation reads. A clause of an undeclared relation is passed over. -/
def noteReads (names : List Name) (edges : List (List Nat)) (relation : Name) (reads : List Name) : List (List Nat) :=
  match lastPosition? names relation with
  | some node => edges.modify node ((reads.filterMap (lastPosition? names)).foldl touch)
  | none => edges

/-- The graph in which a declared relation points to the declared relations that its clauses read, in the
order in which a walk over the clauses first meets them. Relations are known by their positions among the
declarations; the last of several declarations of one name stands for it. -/
def readGraph (program : Program) : Digraph :=
  let names := program.relationNames
  ⟨program.clauses.foldl (fun edges clause => noteReads names edges clause.head.relation clause.reads)
    (List.replicate names.length [])⟩

/-- The strata of a program, in the order of their evaluation. -/
def strata (program : Program) : List Stratum :=
  let graph := readGraph program
  let components := graph.components
  let componentOf := Digraph.componentOf graph.size components
  let names := program.relationNames
  components.zipIdx.map fun (members, position) =>
    { relations := members.filterMap (fun node => names[node]?)
      recursive := decide (1 < members.length) || members.any (fun node => (graph.next node).contains node)
      dependencies := graph.dependencies componentOf position members }

/-- The stratum in which a relation is evaluated. -/
def stratumOf? (strata : List Stratum) (name : Name) : Option Nat :=
  (strata.zipIdx.filter (fun entry => entry.1.relations.contains name)).getLast?.map (·.2)

end DatalogRam.Analysis
