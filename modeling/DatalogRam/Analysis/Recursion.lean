import DatalogRam.Analysis.Reach
import DatalogRam.Datalog.Program

/-!
# Recursive clauses

A clause is recursive if the relation that it defines can be reached from the positive atoms of its body. A
declared relation leads to the positive atoms of its own clauses, and to the equivalence relations that are
the types of its attributes.
-/

namespace DatalogRam.Analysis

/-- The equivalence relations by which attributes of a relation are typed. -/
def equivalenceTypes (program : Program) (relation : Relation) : List Name :=
  relation.attributes.filterMap fun column =>
    match program.relation? column.type with
    | some typed => if typed.representation = .eqrel then some typed.name else none
    | none => none

/-- Where a relation leads. An undeclared one leads nowhere. -/
def leadsTo (program : Program) (name : Name) : List Name :=
  match program.relation? name with
  | none => []
  | some relation =>
      equivalenceTypes program relation ++
        (program.clausesOf name).flatMap (fun entry => entry.1.positiveAtoms.map Atom.relation)

/-- Whether the head of a clause can be reached from its positive body atoms. -/
def isRecursive (program : Program) (clause : Clause) : Bool :=
  let start := clause.positiveAtoms.map Atom.relation
  let reached := gather (leadsTo program) program.relationNames start
  (start ++ reached.flatMap (leadsTo program)).contains clause.head.relation

end DatalogRam.Analysis
