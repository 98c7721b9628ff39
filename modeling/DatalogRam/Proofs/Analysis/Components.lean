import DatalogRam.Proofs.Analysis.Search

/-!
# Components are the classes of nodes that reach each other

Every node is in exactly one component, two nodes are in the same one if and only if each reaches the other, and
no component reaches a later one. The table of positions has the component of each node, and a component depends on
those of the nodes that its own lead to.
-/

namespace DatalogRam.Analysis.Digraph

variable {graph : Digraph}

theorem Linked.symm {left right : Nat} (linked : graph.Linked left right) : graph.Linked right left :=
  And.symm linked

theorem Linked.trans {left middle right : Nat} (first : graph.Linked left middle)
    (second : graph.Linked middle right) : graph.Linked left right :=
  ⟨first.1.trans second.1, second.2.trans first.2⟩

/-- A component is an ascending class of linked nodes. -/
theorem Complete.spec {components : List (List Nat)} (complete : graph.Complete components)
    {component : List Nat} (isComponent : component ∈ components) :
    component.Sublist graph.nodes ∧
      ∃ root ∈ component, ∀ node, node ∈ component ↔ graph.Linked root node := by
  induction complete with
  | none => simp at isComponent
  | @more _ _ root _ ascending isMember linked _ _ ih =>
      rcases List.mem_append.1 isComponent with earlier | last
      · exact ih earlier
      · obtain rfl := List.mem_singleton.1 last
        exact ⟨ascending, root, isMember, linked⟩

/-- No component reaches a later one. -/
theorem Complete.pairwise {components : List (List Nat)} (complete : graph.Complete components) :
    components.Pairwise fun earlier later =>
      ∀ source ∈ earlier, ∀ target ∈ later, ¬graph.Reaches source target := by
  induction complete with
  | none => exact .nil
  | more before _ _ _ apart _ ih =>
      refine List.pairwise_append.2 ⟨ih, List.pairwise_singleton _ _, ?_⟩
      intro earlier isEarlier later isLater source inEarlier target inLater path
      obtain rfl := List.mem_singleton.1 isLater
      exact apart target inLater (before.mem_of_reaches (List.mem_flatten.2 ⟨earlier, isEarlier, inEarlier⟩) path)

/-- A component has a node, and its nodes are those linked to it. -/
theorem component_spec (closed : graph.Closed) {component : List Nat}
    (isComponent : component ∈ graph.components) :
    ∃ root ∈ component, ∀ node, node ∈ component ↔ graph.Linked root node :=
  ((components_complete closed).1.spec isComponent).2

theorem component_sublist (closed : graph.Closed) {component : List Nat}
    (isComponent : component ∈ graph.components) : component.Sublist graph.nodes :=
  ((components_complete closed).1.spec isComponent).1

/-- Every node is in a component. -/
theorem exists_component (closed : graph.Closed) {node : Nat} (isNode : node < graph.size) :
    ∃ component ∈ graph.components, node ∈ component :=
  List.mem_flatten.1 ((components_complete closed).2 node isNode)

/-- A component has several nodes or an edge from a node to itself exactly if some node of it lies on a cycle. -/
theorem component_cyclic_iff (closed : graph.Closed) {component : List Nat}
    (isComponent : component ∈ graph.components) :
    (1 < component.length ∨ ∃ node ∈ component, graph.Edge node node) ↔
      ∃ node ∈ component, Relation.TransGen graph.Edge node node := by
  obtain ⟨root, _, linked⟩ := component_spec closed isComponent
  constructor
  · rintro (several | ⟨node, member, loop⟩)
    · obtain ⟨first, second, rest, rfl⟩ : ∃ first second rest, component = first :: second :: rest := by
        match component with
        | [] | [_] => simp at several
        | first :: second :: rest => exact ⟨first, second, rest, rfl⟩
      have different : second ≠ first := by
        have nodup := (component_sublist closed isComponent).nodup List.nodup_range
        rintro rfl
        simp at nodup
      have path := ((linked first).1 (by simp)).symm.trans ((linked second).1 (by simp))
      have forth := (Relation.reflTransGen_iff_eq_or_transGen.1 path.1).resolve_left different
      exact ⟨first, by simp, forth.trans_left path.2⟩
    · exact ⟨node, member, .single loop⟩
  · rintro ⟨node, member, cycle⟩
    obtain ⟨next, edge, path⟩ := Relation.TransGen.head'_iff.1 cycle
    have inside : next ∈ component := (linked next).2 (((linked node).1 member).trans ⟨.single edge, path⟩)
    by_cases same : next = node
    · exact .inr ⟨node, member, same ▸ edge⟩
    · refine .inl (Nat.lt_of_not_le fun short => same ?_)
      obtain ⟨only, rfl⟩ := List.length_eq_one_iff.1 (Nat.le_antisymm short (List.length_pos_of_mem member))
      rw [List.mem_singleton.1 member, List.mem_singleton.1 inside]

/-- A path leads to the same or an earlier component. -/
theorem position_le_of_reaches (closed : graph.Closed) {source target first second : Nat}
    {sources targets : List Nat} (isFirst : graph.components[first]? = some sources)
    (isSecond : graph.components[second]? = some targets) (inFirst : source ∈ sources)
    (inSecond : target ∈ targets) (path : graph.Reaches source target) : second ≤ first := by
  by_contra later
  obtain ⟨firstLt, rfl⟩ := List.getElem?_eq_some_iff.1 isFirst
  obtain ⟨secondLt, rfl⟩ := List.getElem?_eq_some_iff.1 isSecond
  exact List.pairwise_iff_getElem.1 (components_complete closed).1.pairwise first second firstLt secondLt
    (by omega) source inFirst target inSecond path

/-- Two nodes are in the same component exactly if they are linked. -/
theorem position_eq_iff_linked (closed : graph.Closed) {left right first second : Nat}
    {lefts rights : List Nat} (isFirst : graph.components[first]? = some lefts)
    (isSecond : graph.components[second]? = some rights) (inFirst : left ∈ lefts)
    (inSecond : right ∈ rights) : first = second ↔ graph.Linked left right := by
  constructor
  · rintro rfl
    obtain rfl := Option.some.inj (isFirst.symm.trans isSecond)
    obtain ⟨root, _, members⟩ := component_spec closed (List.mem_of_getElem? isFirst)
    exact ((members left).1 inFirst).symm.trans ((members right).1 inSecond)
  · intro linked
    exact Nat.le_antisymm
      (position_le_of_reaches closed isSecond isFirst inSecond inFirst linked.2)
      (position_le_of_reaches closed isFirst isSecond inFirst inSecond linked.1)

section Positions

variable {node position : Nat}

@[simp] theorem length_place (table : List Nat) (component : List Nat × Nat) :
    (place table component).length = table.length := by
  rw [place]
  induction component.1 generalizing table with
  | nil => rfl
  | cons first rest ih => rw [List.foldl_cons, ih, List.length_set]

theorem length_foldl_place (table : List Nat) (components : List (List Nat × Nat)) :
    (components.foldl place table).length = table.length := by
  induction components generalizing table with
  | nil => rfl
  | cons component components ih => rw [List.foldl_cons, ih, length_place]

theorem getElem?_place {table members : List Nat} (inside : node < table.length) :
    (place table (members, position))[node]? = if node ∈ members then some position else table[node]? := by
  rw [place]
  induction members generalizing table with
  | nil => simp
  | cons first rest ih =>
      rw [List.foldl_cons, ih (by simpa using inside)]
      by_cases same : first = node
      · subst same
        simp [inside]
      · simp [same, Ne.symm same]

/-- A node has the position of a component that it is in, or what stood there before if it is in none. -/
theorem getElem?_foldl_place (table : List Nat) (inside : node < table.length) (components : List (List Nat × Nat)) :
    (∃ component ∈ components, node ∈ component.1 ∧
        (components.foldl place table)[node]? = some component.2) ∨
      (∀ component ∈ components, node ∉ component.1) ∧ (components.foldl place table)[node]? = table[node]? := by
  induction components generalizing table with
  | nil => simp
  | cons first rest ih =>
      obtain ⟨members, position⟩ := first
      rw [List.foldl_cons]
      rcases ih (place table (members, position)) (by simpa using inside) with
        ⟨component, member, isMember, placed⟩ | ⟨outside, kept⟩
      · exact .inl ⟨component, List.mem_cons_of_mem _ member, isMember, placed⟩
      · rw [getElem?_place inside] at kept
        split at kept
        · next isMember => exact .inl ⟨(members, position), List.mem_cons_self, isMember, kept⟩
        · next isOther => exact .inr ⟨List.forall_mem_cons.2 ⟨isOther, outside⟩, kept⟩

/-- The table has the position of the component of every node. -/
theorem getElem?_componentOf (closed : graph.Closed) :
    (componentOf graph.size graph.components)[node]? = some position ↔
      ∃ members, graph.components[position]? = some members ∧ node ∈ members := by
  have placed (isNode : node < graph.size) : ∃ members position, graph.components[position]? = some members ∧
      node ∈ members ∧ (componentOf graph.size graph.components)[node]? = some position := by
    rcases getElem?_foldl_place (List.replicate graph.size 0) (by simpa using isNode) graph.components.zipIdx with
      ⟨⟨members, position⟩, member, isMember, found⟩ | ⟨outside, -⟩
    · exact ⟨members, position, List.mem_zipIdx_iff_getElem?.1 member, isMember, found⟩
    · obtain ⟨members, isComponent, isMember⟩ := exists_component closed isNode
      obtain ⟨position, found⟩ := List.getElem?_of_mem isComponent
      exact absurd isMember (outside (members, position) (List.mem_zipIdx_iff_getElem?.2 found))
  constructor
  · intro found
    have isNode : node < graph.size := by
      have := (List.getElem?_eq_some_iff.1 found).1
      simpa [componentOf, length_foldl_place] using this
    obtain ⟨members, other, isComponent, isMember, also⟩ := placed isNode
    obtain rfl := Option.some.inj (found.symm.trans also)
    exact ⟨members, isComponent, isMember⟩
  · rintro ⟨members, isComponent, isMember⟩
    have isNode := (component_sublist closed (List.mem_of_getElem? isComponent)).subset isMember
    obtain ⟨others, other, isOther, inOthers, found⟩ := placed (by simpa [nodes] using isNode)
    rw [found, (position_eq_iff_linked closed isOther isComponent inOthers isMember).2 ⟨.refl, .refl⟩]

/-- The dependencies of a component are the others that an edge leads to. -/
theorem mem_dependencies (closed : graph.Closed) {members : List Nat} {other : Nat} :
    other ∈ graph.dependencies (componentOf graph.size graph.components) position members ↔
      other ≠ position ∧ ∃ source ∈ members, ∃ target, graph.Edge source target ∧
        ∃ targets, graph.components[other]? = some targets ∧ target ∈ targets := by
  have position {target : Nat} (isNode : target < graph.size) :
      (componentOf graph.size graph.components)[target]?.getD 0 = other ↔
        (componentOf graph.size graph.components)[target]? = some other := by
    have inside : target < (componentOf graph.size graph.components).length := by
      simpa [componentOf, length_foldl_place] using isNode
    rw [List.getElem?_eq_getElem inside, Option.getD_some, Option.some_inj]
  rw [dependencies, mem_distinctAscending, List.mem_filter, bne_iff_ne, and_comm, List.mem_flatMap]
  refine and_congr_right fun _ => exists_congr fun source => and_congr_right fun _ => ?_
  rw [List.mem_map]
  refine exists_congr fun target => and_congr_right fun edge => ?_
  rw [position (closed source target edge), getElem?_componentOf closed]

end Positions

end DatalogRam.Analysis.Digraph
