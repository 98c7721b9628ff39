import DatalogRam.Proofs.Analysis.Expiry
import DatalogRam.Proofs.Analysis.Recursion

/-!
# Strata are the components of what depends on what

A relation occurs in a body as the relation of a positive or negated atom, be it of the body itself or of an
aggregate at any depth within it. `Program.DependsOn` are the edges that this gives, without the lists of reads and
the positions by which the strata are computed. `strata_exact` says that the strata are exactly the classes of
relations that depend on each other, in an order of evaluation, with all that is recorded of them.
-/

namespace DatalogRam

mutual

/-- An aggregate within an argument has an atom of a relation in its body. -/
inductive Argument.Mentions (name : Name) : Argument → Prop where
  | operator {op : Operator} {args : List Argument} {arg : Argument} :
      arg ∈ args → Argument.Mentions name arg → Argument.Mentions name (.operator op args)
  | external {functor : String} {args : List Argument} {arg : Argument} :
      arg ∈ args → Argument.Mentions name arg → Argument.Mentions name (.external functor args)
  | record {args : List Argument} {arg : Argument} :
      arg ∈ args → Argument.Mentions name arg → Argument.Mentions name (.record args)
  | body {function : Aggregation} {target : Option Argument} {body : List Literal} {literal : Literal} :
      literal ∈ body → Literal.Mentions name literal → Argument.Mentions name (.aggregate function target body)
  | target {function : Aggregation} {target : Argument} {body : List Literal} :
      Argument.Mentions name target → Argument.Mentions name (.aggregate function (some target) body)

/-- A literal has an atom of a relation, or an aggregate within it has one. -/
inductive Literal.Mentions (name : Name) : Literal → Prop where
  | positive {args : List Argument} : Literal.Mentions name (.positive name args)
  | negative {args : List Argument} : Literal.Mentions name (.negative name args)
  | inPositive {relation : Name} {args : List Argument} {arg : Argument} :
      arg ∈ args → Argument.Mentions name arg → Literal.Mentions name (.positive relation args)
  | inNegative {relation : Name} {args : List Argument} {arg : Argument} :
      arg ∈ args → Argument.Mentions name arg → Literal.Mentions name (.negative relation args)
  | inLeft {op : Comparison} {left right : Argument} :
      Argument.Mentions name left → Literal.Mentions name (.comparison op left right)
  | inRight {op : Comparison} {left right : Argument} :
      Argument.Mentions name right → Literal.Mentions name (.comparison op left right)

end

theorem Argument.mem_readsOfAll {name : Name} {args : List Argument} :
    name ∈ Argument.readsOfAll args ↔ ∃ arg ∈ args, name ∈ arg.reads := by
  induction args with
  | nil => simp [Argument.readsOfAll]
  | cons arg args ih => simp [Argument.readsOfAll, ih]

mutual

theorem Argument.mentions_of_reads {name : Name} :
    ∀ arg : Argument, name ∈ arg.reads → arg.Mentions name
  | .var _, reads | .unnamed, reads | .constant _, reads | .counter, reads => by
      simp [Argument.reads] at reads
  | .operator _ args, reads => by
      obtain ⟨arg, member, mentions⟩ := Argument.mentions_of_readsOfAll args reads
      exact .operator member mentions
  | .external _ args, reads => by
      obtain ⟨arg, member, mentions⟩ := Argument.mentions_of_readsOfAll args reads
      exact .external member mentions
  | .record args, reads => by
      obtain ⟨arg, member, mentions⟩ := Argument.mentions_of_readsOfAll args reads
      exact .record member mentions
  | .aggregate _ none body, reads => by
      rw [Argument.reads, Argument.readsOfOption, List.append_nil] at reads
      obtain ⟨literal, member, mentions⟩ := Literal.mentions_of_readsOfAll body reads
      exact .body member mentions
  | .aggregate _ (some target) body, reads => by
      rw [Argument.reads, Argument.readsOfOption, List.mem_append] at reads
      rcases reads with inBody | inTarget
      · obtain ⟨literal, member, mentions⟩ := Literal.mentions_of_readsOfAll body inBody
        exact .body member mentions
      · exact .target (Argument.mentions_of_reads target inTarget)

theorem Argument.mentions_of_readsOfAll {name : Name} :
    ∀ args : List Argument, name ∈ Argument.readsOfAll args → ∃ arg ∈ args, arg.Mentions name
  | [], reads => by simp [Argument.readsOfAll] at reads
  | arg :: args, reads => by
      rcases List.mem_append.1 reads with here | later
      · exact ⟨arg, List.mem_cons_self, Argument.mentions_of_reads arg here⟩
      · obtain ⟨other, member, mentions⟩ := Argument.mentions_of_readsOfAll args later
        exact ⟨other, List.mem_cons_of_mem _ member, mentions⟩

theorem Literal.mentions_of_reads {name : Name} :
    ∀ literal : Literal, name ∈ literal.reads → literal.Mentions name
  | .truth _, reads => by simp [Literal.reads] at reads
  | .positive relation args, reads => by
      rcases List.mem_cons.1 reads with rfl | inside
      · exact .positive
      · obtain ⟨arg, member, mentions⟩ := Argument.mentions_of_readsOfAll args inside
        exact .inPositive member mentions
  | .negative relation args, reads => by
      rcases List.mem_cons.1 reads with rfl | inside
      · exact .negative
      · obtain ⟨arg, member, mentions⟩ := Argument.mentions_of_readsOfAll args inside
        exact .inNegative member mentions
  | .comparison _ left right, reads => by
      rcases List.mem_append.1 reads with inLeft | inRight
      · exact .inLeft (Argument.mentions_of_reads left inLeft)
      · exact .inRight (Argument.mentions_of_reads right inRight)

theorem Literal.mentions_of_readsOfAll {name : Name} :
    ∀ literals : List Literal, name ∈ Literal.readsOfAll literals → ∃ literal ∈ literals, literal.Mentions name
  | [], reads => by simp [Literal.readsOfAll] at reads
  | literal :: literals, reads => by
      rcases List.mem_append.1 reads with here | later
      · exact ⟨literal, List.mem_cons_self, Literal.mentions_of_reads literal here⟩
      · obtain ⟨other, member, mentions⟩ := Literal.mentions_of_readsOfAll literals later
        exact ⟨other, List.mem_cons_of_mem _ member, mentions⟩

end

mutual

theorem Argument.Mentions.reads {name : Name} {arg : Argument} : arg.Mentions name → name ∈ arg.reads
  | .operator member mentions | .external member mentions | .record member mentions =>
      Argument.mem_readsOfAll.2 ⟨_, member, mentions.reads⟩
  | .body member mentions => List.mem_append_left _ (Literal.mem_readsOfAll.2 ⟨_, member, mentions.reads⟩)
  | .target mentions => List.mem_append_right _ mentions.reads

theorem Literal.Mentions.reads {name : Name} {literal : Literal} : literal.Mentions name → name ∈ literal.reads
  | .positive | .negative => List.mem_cons_self
  | .inPositive member mentions | .inNegative member mentions =>
      List.mem_cons_of_mem _ (Argument.mem_readsOfAll.2 ⟨_, member, mentions.reads⟩)
  | .inLeft mentions => List.mem_append_left _ mentions.reads
  | .inRight mentions => List.mem_append_right _ mentions.reads

end

/-- The walk over a body meets exactly the relations that occur in it. -/
theorem Clause.mem_reads_iff {clause : Clause} {name : Name} :
    name ∈ clause.reads ↔ ∃ literal ∈ clause.body, literal.Mentions name :=
  ⟨Literal.mentions_of_readsOfAll clause.body, fun ⟨literal, member, mentions⟩ =>
    Literal.mem_readsOfAll.2 ⟨literal, member, mentions.reads⟩⟩

/-- The declared relation `source` occurs in the body of a clause of `reader`. -/
def Program.DependsOn (program : Program) (reader source : Name) : Prop :=
  source ∈ program.relationNames ∧
    ∃ clause ∈ program.clauses, clause.head.relation = reader ∧ ∃ literal ∈ clause.body, literal.Mentions source

theorem Program.dependsOn_iff_reads {program : Program} {reader source : Name} :
    program.DependsOn reader source ↔ program.Reads reader source := by
  simp only [Program.DependsOn, Program.Reads, Clause.mem_reads_iff]

theorem Program.dependsOn_eq (program : Program) : program.DependsOn = program.Reads := by
  funext reader source
  exact propext Program.dependsOn_iff_reads

namespace Analysis

variable {program : Program}

/-- The strata are the classes of relations that depend on each other, in an order of evaluation. -/
structure StrataExact (program : Program) : Prop where
  /-- Every declared relation is in one stratum, -/
  covered : ∀ name ∈ program.relationNames, ∃! position, InStratum program position name
  /-- and no stratum is empty or has anything else. -/
  nonempty : ∀ stratum ∈ strata program, stratum.relations ≠ []
  declared : ∀ stratum ∈ strata program, ∀ name ∈ stratum.relations, name ∈ program.relationNames
  shared : ∀ {first second : Nat} {left right : Name}, InStratum program first left →
    InStratum program second right →
    (first = second ↔ Relation.ReflTransGen program.DependsOn left right ∧
      Relation.ReflTransGen program.DependsOn right left)
  inDeclarationOrder : ∀ stratum ∈ strata program, stratum.relations.Sublist program.relationNames
  stratumOf?_eq_some : ∀ name position,
    stratumOf? (strata program) name = some position ↔ InStratum program position name
  stratumOf?_eq_none : ∀ name, stratumOf? (strata program) name = none ↔ name ∉ program.relationNames
  recursive_iff : ∀ stratum ∈ strata program, stratum.recursive = true ↔
    ∃ name ∈ stratum.relations, Relation.TransGen program.DependsOn name name
  dependencies_ascending : ∀ stratum ∈ strata program, stratum.dependencies.Pairwise (· < ·)
  mem_dependencies_iff : ∀ {position : Nat} {stratum : Stratum}, (strata program)[position]? = some stratum →
    ∀ other, other ∈ stratum.dependencies ↔ other ≠ position ∧
      ∃ reader ∈ stratum.relations, ∃ source, program.DependsOn reader source ∧ InStratum program other source
  dependencies_earlier : ∀ {position : Nat} {stratum : Stratum}, (strata program)[position]? = some stratum →
    ∀ other ∈ stratum.dependencies, other < position

theorem InStratum.of_getElem? {position : Nat} {stratum : Stratum}
    (found : (strata program)[position]? = some stratum) {name : Name} :
    InStratum program position name ↔ name ∈ stratum.relations := by
  refine ⟨?_, fun member => ⟨stratum, found, member⟩⟩
  rintro ⟨other, isOther, member⟩
  exact Option.some.inj (found.symm.trans isOther) ▸ member

theorem filterMap_getElem?_range {α : Type} (elements : List α) :
    (List.range elements.length).filterMap (fun position => elements[position]?) = elements := by
  induction elements with
  | nil => rfl
  | cons element elements ih => simpa [List.range_succ_eq_map, List.filterMap_map, Function.comp_def] using ih

/-- The relations of a stratum stand in the order in which they are declared. -/
theorem stratum_relations_sublist {stratum : Stratum} (isStratum : stratum ∈ strata program) :
    stratum.relations.Sublist program.relationNames := by
  obtain ⟨position, found⟩ := List.getElem?_of_mem isStratum
  obtain ⟨members, isComponent, relations, _⟩ := strata_getElem? found
  have ascending := Digraph.component_sublist readGraph_closed (List.mem_of_getElem? isComponent)
  have all : (readGraph program).nodes.filterMap (fun node => program.relationNames[node]?) =
      program.relationNames := by
    simpa [Digraph.nodes, Program.relationNames] using filterMap_getElem?_range program.relationNames
  have inOrder := ascending.filterMap fun node => program.relationNames[node]?
  rw [all] at inOrder
  exact relations ▸ inOrder

theorem stratum_relations_ne_nil {stratum : Stratum} (isStratum : stratum ∈ strata program) :
    stratum.relations ≠ [] := by
  obtain ⟨position, found⟩ := List.getElem?_of_mem isStratum
  obtain ⟨members, isComponent, relations, _⟩ := strata_getElem? found
  have isComponent := List.mem_of_getElem? isComponent
  obtain ⟨root, member, _⟩ := Digraph.component_spec readGraph_closed isComponent
  have isNode : root < program.relationNames.length := by
    have := (Digraph.component_sublist readGraph_closed isComponent).subset member
    simpa [Digraph.nodes, Program.relationNames] using this
  rw [relations]
  refine List.ne_nil_of_mem (List.mem_filterMap.2 ⟨root, member, List.getElem?_eq_getElem isNode⟩)

theorem stratumOf?_eq_some_iff (once : program.relationNames.Nodup) {name : Name} {position : Nat} :
    stratumOf? (strata program) name = some position ↔ InStratum program position name := by
  have entry {stratum : Stratum} {position : Nat} :
      (stratum, position) ∈ (strata program).zipIdx.filter (fun entry => entry.1.relations.contains name) ↔
        (strata program)[position]? = some stratum ∧ name ∈ stratum.relations := by
    rw [List.mem_filter, List.mem_zipIdx_iff_getElem?, List.contains_iff_mem]
  have found {position : Nat} (isPosition : stratumOf? (strata program) name = some position) :
      InStratum program position name := by
    rw [stratumOf?, Option.map_eq_some_iff] at isPosition
    obtain ⟨⟨stratum, index⟩, last, rfl⟩ := isPosition
    exact ⟨stratum, entry.1 (List.mem_of_getLast? last)⟩
  refine ⟨found, fun inside => ?_⟩
  cases isPosition : stratumOf? (strata program) name with
  | some other => rw [(found isPosition).unique once inside]
  | none =>
      obtain ⟨stratum, atPosition, member⟩ := inside
      rw [stratumOf?, Option.map_eq_none_iff, List.getLast?_eq_none_iff] at isPosition
      exact absurd (entry.2 ⟨atPosition, member⟩) (isPosition ▸ List.not_mem_nil)

theorem stratumOf?_eq_none_iff (once : program.relationNames.Nodup) {name : Name} :
    stratumOf? (strata program) name = none ↔ name ∉ program.relationNames := by
  rw [← not_iff_not, not_not, ← Ne, Option.ne_none_iff_exists']
  constructor
  · rintro ⟨position, found⟩
    exact ((stratumOf?_eq_some_iff once).1 found).declared
  · intro declared
    obtain ⟨position, inside⟩ := exists_inStratum declared
    exact ⟨position, (stratumOf?_eq_some_iff once).2 inside⟩

/-- A stratum is evaluated in a loop if one of its relations reads, directly or through others, itself. -/
theorem recursive_iff_transGen (once : program.relationNames.Nodup) {stratum : Stratum}
    (isStratum : stratum ∈ strata program) :
    stratum.recursive = true ↔ ∃ name ∈ stratum.relations, Relation.TransGen program.Reads name name := by
  obtain ⟨position, found⟩ := List.getElem?_of_mem isStratum
  constructor
  · intro recursive
    obtain ⟨members, atPosition, relations, isRecursive⟩ := strata_getElem? found
    simp only [recursive, eq_comm (a := true), Bool.or_eq_true, decide_eq_true_eq, List.any_eq_true,
      List.contains_iff_mem] at isRecursive
    obtain ⟨node, member, cycle⟩ := (Digraph.component_cyclic_iff readGraph_closed
      (List.mem_of_getElem? atPosition)).1 isRecursive
    obtain ⟨next, edge, path⟩ := Relation.TransGen.head'_iff.1 cycle
    obtain ⟨reader, source, isReader, isSource, reads⟩ := (readGraph_edge_iff once).1 edge
    refine ⟨reader, relations ▸ List.mem_filterMap.2 ⟨node, member, isReader⟩, ?_⟩
    exact .head' reads ((readGraph_reaches_iff once isSource isReader).1 path)
  · rintro ⟨name, member, cycle⟩
    obtain ⟨next, reads, path⟩ := Relation.TransGen.head'_iff.1 cycle
    obtain ⟨other, inside⟩ := exists_inStratum reads.1
    have own := (InStratum.of_getElem? found).2 member
    obtain rfl := (own.eq_iff_sameComponent once inside).2 ⟨.single reads, path⟩
    exact recursive_of_reads once found member ((InStratum.of_getElem? found).1 inside) reads

theorem strata_dependencies {position : Nat} {stratum : Stratum} (found : (strata program)[position]? = some stratum) :
    ∃ members, (readGraph program).components[position]? = some members ∧
      stratum.relations = members.filterMap (fun node => program.relationNames[node]?) ∧
      stratum.dependencies = (readGraph program).dependencies
        (Digraph.componentOf (readGraph program).size (readGraph program).components) position members := by
  simp only [strata, List.getElem?_map, List.getElem?_zipIdx, Option.map_map, Option.map_eq_some_iff] at found
  obtain ⟨members, isComponent, rfl⟩ := found
  exact ⟨members, isComponent, rfl, by simp⟩

/-- The dependencies of a stratum are the other strata that one of its relations reads. -/
theorem mem_dependencies_iff (once : program.relationNames.Nodup) {position : Nat} {stratum : Stratum}
    (found : (strata program)[position]? = some stratum) {other : Nat} :
    other ∈ stratum.dependencies ↔ other ≠ position ∧
      ∃ reader ∈ stratum.relations, ∃ source, program.Reads reader source ∧ InStratum program other source := by
  obtain ⟨members, atPosition, relations, dependencies⟩ := strata_dependencies found
  rw [dependencies, Digraph.mem_dependencies readGraph_closed, relations]
  refine and_congr_right fun _ => ⟨?_, ?_⟩
  · rintro ⟨node, member, target, edge, targets, isOther, inOther⟩
    obtain ⟨reader, source, isReader, isSource, reads⟩ := (readGraph_edge_iff once).1 edge
    exact ⟨reader, List.mem_filterMap.2 ⟨node, member, isReader⟩, source, reads,
      inStratum_iff.2 ⟨targets, isOther, target, inOther, isSource⟩⟩
  · rintro ⟨reader, isMember, source, reads, inside⟩
    obtain ⟨node, member, isReader⟩ := List.mem_filterMap.1 isMember
    obtain ⟨targets, isOther, target, inOther, isSource⟩ := inStratum_iff.1 inside
    exact ⟨node, member, target, (readGraph_edge_iff once).2 ⟨reader, source, isReader, isSource, reads⟩, targets,
      isOther, inOther⟩

theorem dependencies_pairwise {stratum : Stratum} (isStratum : stratum ∈ strata program) :
    stratum.dependencies.Pairwise (· < ·) := by
  simp only [strata, List.mem_map] at isStratum
  obtain ⟨_, _, rfl⟩ := isStratum
  exact distinctAscending_pairwise _

theorem strata_exact (once : program.relationNames.Nodup) : StrataExact program where
  covered name declared := by
    obtain ⟨position, inside⟩ := exists_inStratum declared
    exact ⟨position, inside, fun other also => also.unique once inside⟩
  nonempty _ := stratum_relations_ne_nil
  declared _ isStratum := (stratum_relations_sublist isStratum).subset
  shared inFirst inSecond := by
    rw [Program.dependsOn_eq]
    exact inFirst.eq_iff_sameComponent once inSecond
  inDeclarationOrder _ := stratum_relations_sublist
  stratumOf?_eq_some _ _ := stratumOf?_eq_some_iff once
  stratumOf?_eq_none _ := stratumOf?_eq_none_iff once
  recursive_iff _ isStratum := by
    rw [Program.dependsOn_eq]
    exact recursive_iff_transGen once isStratum
  dependencies_ascending _ := dependencies_pairwise
  mem_dependencies_iff found _ := by
    rw [Program.dependsOn_eq]
    exact mem_dependencies_iff once found
  dependencies_earlier found other member := by
    obtain ⟨different, reader, isReader, source, reads, inside⟩ := (mem_dependencies_iff once found).1 member
    have own := (InStratum.of_getElem? found).2 isReader
    exact Nat.lt_of_le_of_ne (own.le_of_readsThrough once inside (.single reads)) different

/-- Even and odd numbers, and how many of the even ones are no small number. -/
def parity : Program where
  types := []
  relations :=
    [⟨⟨["even"]⟩, [⟨"n", ⟨["number"]⟩⟩], .standard, []⟩,
      ⟨⟨["next"]⟩, [⟨"m", ⟨["number"]⟩⟩, ⟨"n", ⟨["number"]⟩⟩], .standard, []⟩,
      ⟨⟨["odd"]⟩, [⟨"n", ⟨["number"]⟩⟩], .standard, []⟩, ⟨⟨["small"]⟩, [⟨"n", ⟨["number"]⟩⟩], .standard, []⟩,
      ⟨⟨["large"]⟩, [⟨"n", ⟨["number"]⟩⟩], .standard, []⟩]
  clauses :=
    [⟨⟨⟨["odd"]⟩, [.var "n"]⟩, [.positive ⟨["even"]⟩ [.var "m"], .positive ⟨["next"]⟩ [.var "m", .var "n"]]⟩,
      ⟨⟨⟨["even"]⟩, [.var "n"]⟩, [.positive ⟨["odd"]⟩ [.var "m"], .positive ⟨["next"]⟩ [.var "m", .var "n"]]⟩,
      ⟨⟨⟨["large"]⟩, [.var "n"]⟩,
        [.comparison .eq (.var "n") (.aggregate .count none
          [.positive ⟨["even"]⟩ [.var "m"], .negative ⟨["small"]⟩ [.var "m"]])]⟩]

theorem strata_exact_parity :
    StrataExact parity ∧ (strata parity).map Stratum.relations =
      [[⟨["next"]⟩], [⟨["even"]⟩, ⟨["odd"]⟩], [⟨["small"]⟩], [⟨["large"]⟩]] ∧
    (strata parity).map Stratum.dependencies = [[], [0], [], [1, 2]] :=
  ⟨strata_exact (by decide), by decide, by decide⟩

end Analysis

end DatalogRam
