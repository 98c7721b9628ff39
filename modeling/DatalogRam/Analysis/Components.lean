import DatalogRam.Analysis.Collection

/-!
# Strongly connected components

The nodes of a `Digraph` are the numbers below its size. Its components are the classes of nodes that reach each
other, found by one depth-first search in the manner of Tarjan: nodes are numbered as they are entered and kept on
a stack, and each learns the least number of a node on the stack that it leads back to. A node that leads back to
none before itself ends a component, which is then all of the stack from that node on. So a component comes after
every other component that it reaches.
-/

namespace DatalogRam.Analysis

/-- A directed graph, given by the successors of each node. -/
structure Digraph where
  successors : List (List Nat)

/-- Where the search for components stands. -/
structure Search where
  /-- The numbers that nodes got when they were entered. -/
  indices : List (Nat × Nat)
  /-- The least numbers that nodes are known to lead back to. The first entry of a node counts. -/
  lowlinks : List (Nat × Nat)
  /-- The nodes that were entered and are in no component yet, the last one first. -/
  stack : List Nat
  /-- The number of the node that is entered next. -/
  nextIndex : Nat
  components : List (List Nat)

namespace Search

def start : Search :=
  ⟨[], [], [], 0, []⟩

def index? (search : Search) (node : Nat) : Option Nat :=
  search.indices.lookup node

def lowlink (search : Search) (node : Nat) : Nat :=
  (search.lowlinks.lookup node).getD 0

def enter (search : Search) (node : Nat) : Search :=
  { search with
    indices := (node, search.nextIndex) :: search.indices
    lowlinks := (node, search.nextIndex) :: search.lowlinks
    stack := node :: search.stack
    nextIndex := search.nextIndex + 1 }

/-- Note that a node leads back to a number. -/
def lower (search : Search) (node bound : Nat) : Search :=
  { search with lowlinks := (node, min (search.lowlink node) bound) :: search.lowlinks }

/-- Take nodes from a stack until a given one has been taken. What is left is the second result. -/
def takeThrough (node : Nat) : List Nat → List Nat × List Nat
  | [] => ([], [])
  | top :: rest =>
      if top = node then ([top], rest)
      else
        let (taken, left) := takeThrough node rest
        (top :: taken, left)

/-- Leave a node. If it leads back to nothing before itself, it and all above it are a component, in ascending
order. -/
def leave (search : Search) (node : Nat) : Search :=
  if search.index? node = some (search.lowlink node) then
    let (taken, left) := takeThrough node search.stack
    { search with
      stack := left
      components := search.components ++ [ascending taken] }
  else search

/-- Follow an edge. A node that was not entered before is visited. -/
def follow (visit : Search → Nat → Search) (source : Nat) (search : Search) (target : Nat) : Search :=
  match search.index? target with
  | none =>
      let search := visit search target
      search.lower source (search.lowlink target)
  | some index => if search.stack.contains target then search.lower source index else search

end Search

namespace Digraph

def size (graph : Digraph) : Nat :=
  graph.successors.length

def nodes (graph : Digraph) : List Nat :=
  List.range graph.size

/-- The successors of a node, in the order in which the search follows them. -/
def next (graph : Digraph) (node : Nat) : List Nat :=
  graph.successors[node]?.getD []

/-- Enter a node, follow its edges and leave it. Visits are never nested deeper than `depth` if that is the number
of nodes, since a node is entered once. -/
def visit (graph : Digraph) : Nat → Search → Nat → Search
  | 0, search, _ => search
  | depth + 1, search, node =>
      ((graph.next node).foldl (Search.follow (graph.visit depth) node) (search.enter node)).leave node

/-- Visit a node that was not entered before. -/
def visitOnce (graph : Digraph) (search : Search) (node : Nat) : Search :=
  match search.index? node with
  | none => graph.visit graph.size search node
  | some _ => search

/-- The components, each in ascending order. -/
def components (graph : Digraph) : List (List Nat) :=
  (graph.nodes.foldl graph.visitOnce .start).components

/-- Write the position of a component at each of its members. -/
def place (table : List Nat) (component : List Nat × Nat) : List Nat :=
  component.1.foldl (fun table node => table.set node component.2) table

/-- For each of so many nodes, the position of its component. -/
def componentOf (size : Nat) (components : List (List Nat)) : List Nat :=
  components.zipIdx.foldl place (List.replicate size 0)

/-- The positions of the other components that edges from the members of a component lead to, in ascending order. -/
def dependencies (graph : Digraph) (componentOf : List Nat) (position : Nat) (members : List Nat) : List Nat :=
  let targets := members.flatMap fun node => (graph.next node).map fun target => componentOf[target]?.getD 0
  distinctAscending (targets.filter (· != position))

end Digraph

end DatalogRam.Analysis
