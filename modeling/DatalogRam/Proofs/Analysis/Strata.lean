import DatalogRam.Analysis.Strata
import DatalogRam.Proofs.Analysis.Components

/-!
# Strata and what relations read

`Program.Reads` says which declared relations the clauses of a relation read. If no relation is declared twice,
each declared relation has one stratum, two relations share a stratum exactly if they read each other, directly
or through others, and a stratum reads only itself and earlier ones.
-/

namespace DatalogRam

/-- A clause of `reader` reads the declared relation `source`. -/
def Program.Reads (program : Program) (reader source : Name) : Prop :=
  source ∈ program.relationNames ∧
    ∃ clause ∈ program.clauses, clause.head.relation = reader ∧ source ∈ clause.reads

/-- Reading directly, through others, or not at all from oneself. -/
abbrev Program.ReadsThrough (program : Program) : Name → Name → Prop :=
  Relation.ReflTransGen program.Reads

theorem Program.declared_of_readsThrough {program : Program} {reader source : Name}
    (declared : reader ∈ program.relationNames) (path : program.ReadsThrough reader source) :
    source ∈ program.relationNames := by
  rcases Relation.ReflTransGen.cases_tail path with same | ⟨_, _, step⟩
  · exact same ▸ declared
  · exact step.1

/-- Relations that read each other, directly or through others. -/
def Program.SameComponent (program : Program) (left right : Name) : Prop :=
  program.ReadsThrough left right ∧ program.ReadsThrough right left

namespace Analysis

/-- The name is among those of the stratum at a position. -/
def InStratum (program : Program) (position : Nat) (name : Name) : Prop :=
  ∃ stratum, (strata program)[position]? = some stratum ∧ name ∈ stratum.relations

section Positions

variable {α : Type} [DecidableEq α]

theorem getElem?_of_lastPosition? {elements : List α} {element : α} {position : Nat}
    (found : lastPosition? elements element = some position) : elements[position]? = some element := by
  rw [lastPosition?, Option.map_eq_some_iff] at found
  obtain ⟨⟨same, index⟩, last, rfl⟩ := found
  have member := List.mem_filter.1 (List.mem_of_getLast? last)
  rw [List.mem_zipIdx_iff_getElem?, beq_iff_eq] at member
  exact member.2 ▸ member.1

theorem exists_lastPosition {elements : List α} {element : α} (member : element ∈ elements) :
    ∃ position, lastPosition? elements element = some position := by
  obtain ⟨position, found⟩ := List.getElem?_of_mem member
  have entry : (element, position) ∈ elements.zipIdx.filter (fun entry => entry.1 == element) := by
    simp [List.mem_zipIdx_iff_getElem?, found]
  cases last : lastPosition? elements element with
  | some other => exact ⟨other, rfl⟩
  | none =>
      rw [lastPosition?, Option.map_eq_none_iff, List.getLast?_eq_none_iff] at last
      rw [last] at entry
      exact absurd entry List.not_mem_nil

/-- Without repetitions the last position of an element is its only one. -/
theorem lastPosition?_eq_some_iff {elements : List α} (once : elements.Nodup) {element : α}
    {position : Nat} :
    lastPosition? elements element = some position ↔ elements[position]? = some element := by
  refine ⟨getElem?_of_lastPosition?, fun found => ?_⟩
  obtain ⟨other, last⟩ := exists_lastPosition (List.mem_of_getElem? found)
  have also := getElem?_of_lastPosition? last
  obtain ⟨inside, _⟩ := List.getElem?_eq_some_iff.1 found
  rw [last, (List.getElem?_inj inside once).1 (found.trans also.symm)]

end Positions

section Graph

variable {program : Program}

variable {names : List Name} {edges : List (List Nat)} {source target : Nat}

@[simp] theorem length_noteReads (names : List Name) (edges : List (List Nat)) (relation : Name) (reads : List Name) :
    (noteReads names edges relation reads).length = edges.length := by
  rw [noteReads]
  split
  · exact List.length_modify ..
  · rfl

theorem mem_noteReads (inside : source < edges.length) {relation : Name} {reads : List Name} :
    target ∈ (noteReads names edges relation reads)[source]?.getD [] ↔
      target ∈ edges[source]?.getD [] ∨
        lastPosition? names relation = some source ∧ ∃ read ∈ reads, lastPosition? names read = some target := by
  rw [noteReads]
  cases isNode : lastPosition? names relation with
  | none => simp
  | some node =>
      by_cases same : node = source
      · simp [same, inside, mem_foldl_touch]
      · simp [same]

/-- Going over clauses adds the edges that they give. -/
theorem mem_foldl_noteReads (inside : source < edges.length) (clauses : List Clause) :
    target ∈ (clauses.foldl (fun edges clause => noteReads names edges clause.head.relation clause.reads)
        edges)[source]?.getD [] ↔
      target ∈ edges[source]?.getD [] ∨
        ∃ clause ∈ clauses, lastPosition? names clause.head.relation = some source ∧
          ∃ read ∈ clause.reads, lastPosition? names read = some target := by
  induction clauses generalizing edges with
  | nil => simp
  | cons clause clauses ih =>
      rw [List.foldl_cons, ih (by simpa using inside), mem_noteReads inside, or_assoc, List.exists_mem_cons_iff]

theorem length_foldl_noteReads (names : List Name) (edges : List (List Nat)) (clauses : List Clause) :
    (clauses.foldl (fun edges clause => noteReads names edges clause.head.relation clause.reads) edges).length =
      edges.length := by
  induction clauses generalizing edges with
  | nil => rfl
  | cons clause clauses ih => rw [List.foldl_cons, ih, length_noteReads]

@[simp] theorem readGraph_size : (readGraph program).size = program.relations.length := by
  rw [readGraph, Digraph.size, length_foldl_noteReads, List.length_replicate, Program.relationNames, List.length_map]

/-- An edge of the graph is a clause that reads a declared relation. Relations are known by their last positions. -/
theorem readGraph_edge :
    (readGraph program).Edge source target ↔
      ∃ clause ∈ program.clauses, lastPosition? program.relationNames clause.head.relation = some source ∧
        ∃ read ∈ clause.reads, lastPosition? program.relationNames read = some target := by
  by_cases inside : source < program.relationNames.length
  · rw [Digraph.Edge, Digraph.next, readGraph, mem_foldl_noteReads (by simpa using inside)]
    simp [inside]
  · constructor
    · intro edge
      have nowhere : (readGraph program).next source = [] := by
        rw [Digraph.next, List.getElem?_eq_none, Option.getD_none]
        have size : (readGraph program).successors.length = program.relations.length := readGraph_size
        simpa [size, Program.relationNames] using inside
      rw [Digraph.Edge, nowhere] at edge
      exact absurd edge List.not_mem_nil
    · rintro ⟨_, _, own, _⟩
      exact absurd (List.getElem?_eq_some_iff.1 (getElem?_of_lastPosition? own)).1 inside

/-- Without repetitions an edge is a relation that reads another one. -/
theorem readGraph_edge_iff (once : program.relationNames.Nodup) {source target : Nat} :
    (readGraph program).Edge source target ↔
      ∃ reader read, program.relationNames[source]? = some reader ∧
        program.relationNames[target]? = some read ∧ program.Reads reader read := by
  rw [readGraph_edge]
  constructor
  · rintro ⟨clause, isClause, own, read, isRead, position⟩
    have declared := getElem?_of_lastPosition? position
    exact ⟨clause.head.relation, read, getElem?_of_lastPosition? own, declared,
      List.mem_of_getElem? declared, clause, isClause, rfl, isRead⟩
  · rintro ⟨reader, read, isReader, isRead, _, clause, isClause, rfl, reads⟩
    exact ⟨clause, isClause, (lastPosition?_eq_some_iff once).2 isReader, read, reads,
      (lastPosition?_eq_some_iff once).2 isRead⟩

theorem readGraph_closed : (readGraph program).Closed := by
  intro source target edge
  obtain ⟨_, _, _, read, _, position⟩ := readGraph_edge.1 edge
  have inside := (List.getElem?_eq_some_iff.1 (getElem?_of_lastPosition? position)).1
  simpa [Program.relationNames] using inside

theorem readGraph_edge_of_reads {source target : Nat} {reader read : Name} (reads : program.Reads reader read)
    (isReader : lastPosition? program.relationNames reader = some source)
    (isRead : lastPosition? program.relationNames read = some target) : (readGraph program).Edge source target := by
  obtain ⟨_, clause, isClause, rfl, inClause⟩ := reads
  exact readGraph_edge.2 ⟨clause, isClause, isReader, read, inClause, isRead⟩

/-- A chain of relations that read each other is a path between their last positions. -/
theorem readGraph_reaches_of_readsThrough {source target : Nat} {reader read : Name}
    (path : program.ReadsThrough reader read) (isReader : lastPosition? program.relationNames reader = some source)
    (isRead : lastPosition? program.relationNames read = some target) :
    (readGraph program).Reaches source target := by
  induction path generalizing target with
  | refl =>
      obtain rfl := Option.some.inj (isReader.symm.trans isRead)
      exact .refl
  | @tail middle last path reads ih =>
      have declared : middle ∈ program.relationNames :=
        Program.declared_of_readsThrough (List.mem_of_getElem? (getElem?_of_lastPosition? isReader)) path
      obtain ⟨position, isMiddle⟩ := exists_lastPosition declared
      exact (ih isMiddle).tail (readGraph_edge_of_reads reads isMiddle isRead)

/-- A path of the graph is a chain of relations that read each other. -/
theorem readGraph_reaches_iff (once : program.relationNames.Nodup) {source target : Nat}
    {reader read : Name} (isReader : program.relationNames[source]? = some reader)
    (isRead : program.relationNames[target]? = some read) :
    (readGraph program).Reaches source target ↔ program.ReadsThrough reader read := by
  constructor
  · intro path
    induction path generalizing read with
    | refl =>
        obtain rfl := Option.some.inj (isReader.symm.trans isRead)
        exact .refl
    | tail _ edge ih =>
        obtain ⟨middle, last, isMiddle, isLast, reads⟩ := (readGraph_edge_iff once).1 edge
        obtain rfl := Option.some.inj (isLast.symm.trans isRead)
        exact (ih isMiddle).tail reads
  · exact fun path => readGraph_reaches_of_readsThrough path ((lastPosition?_eq_some_iff once).2 isReader)
      ((lastPosition?_eq_some_iff once).2 isRead)

end Graph

section Strata

variable {program : Program}

/-- A stratum holds the names of a component. -/
theorem strata_getElem? {position : Nat} {stratum : Stratum}
    (found : (strata program)[position]? = some stratum) :
    ∃ members, (readGraph program).components[position]? = some members ∧
      stratum.relations = members.filterMap (fun node => program.relationNames[node]?) ∧
      stratum.recursive = (decide (1 < members.length) ||
        members.any (fun node => ((readGraph program).next node).contains node)) := by
  simp only [strata, List.getElem?_map, List.getElem?_zipIdx, Option.map_map, Option.map_eq_some_iff] at found
  obtain ⟨members, isComponent, rfl⟩ := found
  exact ⟨members, isComponent, rfl, rfl⟩

theorem inStratum_iff {position : Nat} {name : Name} :
    InStratum program position name ↔
      ∃ members, (readGraph program).components[position]? = some members ∧
        ∃ node ∈ members, program.relationNames[node]? = some name := by
  constructor
  · rintro ⟨stratum, found, member⟩
    obtain ⟨members, isComponent, relations, _⟩ := strata_getElem? found
    rw [relations, List.mem_filterMap] at member
    exact ⟨members, isComponent, member⟩
  · rintro ⟨members, isComponent, node, member, isName⟩
    have found : ∃ stratum, (strata program)[position]? = some stratum := by
      simp [strata, List.getElem?_zipIdx, isComponent]
    obtain ⟨stratum, found⟩ := found
    obtain ⟨others, isOther, relations, _⟩ := strata_getElem? found
    obtain rfl := Option.some.inj (isComponent.symm.trans isOther)
    exact ⟨stratum, found, relations ▸ List.mem_filterMap.2 ⟨node, member, isName⟩⟩

theorem InStratum.declared {position : Nat} {name : Name} (inside : InStratum program position name) :
    name ∈ program.relationNames := by
  obtain ⟨_, _, _, _, isName⟩ := inStratum_iff.1 inside
  exact List.mem_of_getElem? isName

/-- Every declared relation has a stratum. -/
theorem exists_inStratum {name : Name} (declared : name ∈ program.relationNames) :
    ∃ position, InStratum program position name := by
  obtain ⟨node, isName⟩ := List.getElem?_of_mem declared
  have isNode : node < (readGraph program).size := by
    simpa [Program.relationNames] using (List.getElem?_eq_some_iff.1 isName).1
  obtain ⟨members, isComponent, member⟩ := Digraph.exists_component readGraph_closed isNode
  obtain ⟨position, atPosition⟩ := List.getElem?_of_mem isComponent
  exact ⟨position, inStratum_iff.2 ⟨members, atPosition, node, member, isName⟩⟩

/-- A relation reads, directly or through others, only strata up to its own. -/
theorem InStratum.le_of_readsThrough (once : program.relationNames.Nodup) {first second : Nat}
    {reader read : Name} (inFirst : InStratum program first reader)
    (inSecond : InStratum program second read) (reads : program.ReadsThrough reader read) :
    second ≤ first := by
  obtain ⟨_, isFirst, source, isSource, isReader⟩ := inStratum_iff.1 inFirst
  obtain ⟨_, isSecond, target, isTarget, isRead⟩ := inStratum_iff.1 inSecond
  exact Digraph.position_le_of_reaches readGraph_closed isFirst isSecond isSource isTarget
    ((readGraph_reaches_iff once isReader isRead).2 reads)

/-- Relations share a stratum exactly if they read each other, directly or through others. -/
theorem InStratum.eq_iff_sameComponent (once : program.relationNames.Nodup) {first second : Nat}
    {left right : Name} (inFirst : InStratum program first left)
    (inSecond : InStratum program second right) :
    first = second ↔ program.SameComponent left right := by
  obtain ⟨_, isFirst, source, isSource, isLeft⟩ := inStratum_iff.1 inFirst
  obtain ⟨_, isSecond, target, isTarget, isRight⟩ := inStratum_iff.1 inSecond
  rw [Digraph.position_eq_iff_linked readGraph_closed isFirst isSecond isSource isTarget]
  exact and_congr (readGraph_reaches_iff once isLeft isRight) (readGraph_reaches_iff once isRight isLeft)

theorem InStratum.unique (once : program.relationNames.Nodup) {first second : Nat} {name : Name}
    (inFirst : InStratum program first name) (inSecond : InStratum program second name) :
    first = second :=
  (inFirst.eq_iff_sameComponent once inSecond).2 ⟨.refl, .refl⟩

/-- Nodes with an edge among them are several, or the edge leads back to where it starts. -/
theorem cyclic_of_edge {source target : Nat} {members : List Nat} (edge : (readGraph program).Edge source target)
    (isSource : source ∈ members) (isTarget : target ∈ members) :
    (decide (1 < members.length) || members.any fun node => ((readGraph program).next node).contains node) = true := by
  rw [Bool.or_eq_true, decide_eq_true_eq]
  by_cases same : source = target
  · subst same
    exact .inr (List.any_eq_true.2 ⟨source, isSource, List.contains_iff_mem.2 edge⟩)
  · refine .inl ?_
    by_contra short
    obtain ⟨only, rfl⟩ | rfl : (∃ only, members = [only]) ∨ members = [] := by
      match members with
      | [] => exact .inr rfl
      | [only] => exact .inl ⟨only, rfl⟩
      | _ :: _ :: _ => simp at short
    · exact same ((List.mem_singleton.1 isSource).trans (List.mem_singleton.1 isTarget).symm)
    · simp at isSource

/-- A stratum with a relation that reads the stratum is evaluated in a loop. -/
theorem recursive_of_reads (once : program.relationNames.Nodup) {position : Nat} {stratum : Stratum}
    (found : (strata program)[position]? = some stratum) {reader source : Name}
    (isReader : reader ∈ stratum.relations) (isSource : source ∈ stratum.relations)
    (reads : program.Reads reader source) : stratum.recursive = true := by
  obtain ⟨members, isComponent, relations, recursive⟩ := strata_getElem? found
  rw [relations, List.mem_filterMap] at isReader isSource
  obtain ⟨node, inNode, nodeName⟩ := isReader
  obtain ⟨target, inTarget, targetName⟩ := isSource
  have edge := (readGraph_edge_iff once).2 ⟨reader, source, nodeName, targetName, reads⟩
  rw [recursive, cyclic_of_edge edge inNode inTarget]

/-- A relation that reads itself through another one is evaluated in a loop together with that one, even if relations
are declared several times. -/
theorem exists_stratum_of_cycle {reader source : Name} (declared : reader ∈ program.relationNames)
    (reads : program.Reads reader source) (back : program.ReadsThrough source reader) :
    ∃ stratum ∈ strata program, stratum.recursive = true ∧ reader ∈ stratum.relations ∧
      source ∈ stratum.relations := by
  obtain ⟨start, isStart⟩ := exists_lastPosition declared
  obtain ⟨target, isTarget⟩ := exists_lastPosition reads.1
  have edge := readGraph_edge_of_reads reads isStart isTarget
  have path : (readGraph program).Reaches target start := readGraph_reaches_of_readsThrough back isTarget isStart
  have isNode : start < (readGraph program).size := by
    simpa [Program.relationNames] using (List.getElem?_eq_some_iff.1 (getElem?_of_lastPosition? isStart)).1
  obtain ⟨members, isComponent, member⟩ := Digraph.exists_component readGraph_closed isNode
  obtain ⟨root, _, linked⟩ := Digraph.component_spec readGraph_closed isComponent
  have isMember : target ∈ members :=
    (linked target).2 (((linked start).1 member).trans ⟨.single edge, path⟩)
  obtain ⟨position, atPosition⟩ := List.getElem?_of_mem isComponent
  have isReader : InStratum program position reader :=
    inStratum_iff.2 ⟨members, atPosition, start, member, getElem?_of_lastPosition? isStart⟩
  obtain ⟨stratum, found, inReader⟩ := isReader
  obtain ⟨others, isOther, relations, recursive⟩ := strata_getElem? found
  obtain rfl := Option.some.inj (atPosition.symm.trans isOther)
  refine ⟨stratum, List.mem_of_getElem? found, ?_, inReader, ?_⟩
  · rw [recursive, cyclic_of_edge edge member isMember]
  · exact relations ▸ List.mem_filterMap.2 ⟨target, isMember, getElem?_of_lastPosition? isTarget⟩

theorem stratum_relations_nodup (once : program.relationNames.Nodup) {stratum : Stratum}
    (isStratum : stratum ∈ strata program) : stratum.relations.Nodup := by
  obtain ⟨position, found⟩ := List.getElem?_of_mem isStratum
  obtain ⟨members, isComponent, relations, _⟩ := strata_getElem? found
  have ascending := Digraph.component_sublist readGraph_closed (List.mem_of_getElem? isComponent)
  rw [relations]
  refine (ascending.nodup List.nodup_range).filterMap fun node other name isNode isOther => ?_
  obtain ⟨inside, _⟩ := List.getElem?_eq_some_iff.1 isNode
  exact (List.getElem?_inj inside once).1 ((Option.mem_def.1 isNode).trans (Option.mem_def.1 isOther).symm)

end Strata

end Analysis

end DatalogRam
