import DatalogRam.Analysis.Components
import DatalogRam.Proofs.Analysis.Collection
import Mathlib.Data.List.Nodup
import Mathlib.Logic.Relation
import Mathlib.Order.MinMax

/-!
# The search for components

A node is active from when it is entered to when it is left. The invariant of the search is `Search.Sound`: every
active node reaches all that is above it on the stack, and every node on the stack reaches an active one at or
below itself. So nodes on the stack reach each other as soon as they lead back to the same active node, and the
lowlink of a node that is left decides whether they do. `Search.Scanned` is what holds between two edges of a node,
`Search.Visited` what a whole visit does.
-/

namespace DatalogRam.Analysis

namespace Digraph

/-- The edges of a graph. -/
def Edge (graph : Digraph) (source target : Nat) : Prop :=
  target ∈ graph.next source

/-- Paths of any length. -/
abbrev Reaches (graph : Digraph) : Nat → Nat → Prop :=
  Relation.ReflTransGen graph.Edge

/-- All edges lead to nodes. -/
def Closed (graph : Digraph) : Prop :=
  ∀ source target, graph.Edge source target → target < graph.size

/-- Nodes that reach each other. -/
def Linked (graph : Digraph) (left right : Nat) : Prop :=
  graph.Reaches left right ∧ graph.Reaches right left

/-- Lists of components that the search can have found: each is a class of linked nodes in ascending order, it
has no node of an earlier one, and its edges lead to itself and to earlier ones. -/
inductive Complete (graph : Digraph) : List (List Nat) → Prop where
  | none : Complete graph []
  | more {earlier : List (List Nat)} {component : List Nat} {root : Nat} :
      Complete graph earlier → component.Sublist graph.nodes → root ∈ component →
      (∀ node, node ∈ component ↔ graph.Linked root node) →
      (∀ node ∈ component, node ∉ earlier.flatten) →
      (∀ source ∈ component, ∀ target, graph.Edge source target →
        target ∈ component ∨ target ∈ earlier.flatten) →
      Complete graph (earlier ++ [component])

variable {graph : Digraph}

theorem Complete.mem_of_edge {components : List (List Nat)} (complete : graph.Complete components)
    {source target : Nat} (inside : source ∈ components.flatten) (edge : graph.Edge source target) :
    target ∈ components.flatten := by
  induction complete with
  | none => simp at inside
  | more _ _ _ _ _ leads ih =>
      simp only [List.flatten_append, List.flatten_singleton, List.mem_append] at inside ⊢
      rcases inside with inEarlier | inLast
      · exact .inl (ih inEarlier)
      · exact (leads source inLast target edge).symm

/-- No path leads out of the components found. -/
theorem Complete.mem_of_reaches {components : List (List Nat)} (complete : graph.Complete components)
    {source target : Nat} (inside : source ∈ components.flatten) (path : graph.Reaches source target) :
    target ∈ components.flatten := by
  induction path with
  | refl => exact inside
  | tail _ edge ih => exact complete.mem_of_edge ih edge

end Digraph

namespace Search

def Entered (search : Search) (node : Nat) : Prop :=
  search.index? node ≠ none

/-- The number of an entered node. -/
def order (search : Search) (node : Nat) : Nat :=
  (search.index? node).getD 0

variable {search before during after : Search} {node other target bound : Nat}

theorem index?_enter :
    (search.enter node).index? other = if other = node then some search.nextIndex else search.index? other := by
  by_cases same : other = node <;> simp [index?, enter, List.lookup_cons, same, beq_false_of_ne]

theorem lowlink_enter :
    (search.enter node).lowlink other = if other = node then search.nextIndex else search.lowlink other := by
  by_cases same : other = node <;> simp [lowlink, enter, List.lookup_cons, same, beq_false_of_ne]

theorem lowlink_lower :
    (search.lower node bound).lowlink other =
      if other = node then min (search.lowlink node) bound else search.lowlink other := by
  by_cases same : other = node <;> simp [lowlink, lower, List.lookup_cons, same, beq_false_of_ne]

theorem entered_enter : (search.enter node).Entered other ↔ other = node ∨ search.Entered other := by
  rw [Entered, index?_enter]
  by_cases same : other = node <;> simp [Entered, same]

theorem order_enter :
    (search.enter node).order other = if other = node then search.nextIndex else search.order other := by
  rw [order, index?_enter]
  split <;> rfl

theorem order_enter_of_entered (fresh : ¬search.Entered node) (entered : search.Entered other) :
    (search.enter node).order other = search.order other := by
  rw [order_enter, if_neg]
  rintro rfl
  exact fresh entered

theorem takeThrough_append {above below : List Nat} (outside : node ∉ above) :
    takeThrough node (above ++ node :: below) = (above ++ [node], below) := by
  induction above with
  | nil => simp [takeThrough]
  | cons top above ih =>
      have different : top ≠ node := fun same => outside (same ▸ List.mem_cons_self)
      simp [takeThrough, different, ih fun member => outside (List.mem_cons_of_mem _ member)]

/-- The invariant of the search. -/
structure Sound (graph : Digraph) (search : Search) (active : List Nat) : Prop where
  complete : graph.Complete search.components
  entered_iff : ∀ node, search.Entered node ↔ node ∈ search.stack ∨ node ∈ search.components.flatten
  apart : ∀ node ∈ search.stack, node ∉ search.components.flatten
  isNode : ∀ node ∈ search.stack, node < graph.size
  descending : search.stack.Pairwise fun above below => search.order below < search.order above
  order_lt : ∀ node ∈ search.stack, search.order node < search.nextIndex
  onStack : ∀ node ∈ active, node ∈ search.stack
  reachesAbove : ∀ node ∈ active, ∀ other ∈ search.stack, search.order node ≤ search.order other →
    graph.Reaches node other
  reachesActive : ∀ node ∈ search.stack, ∃ back ∈ active,
    search.order back ≤ search.order node ∧ graph.Reaches node back
  followed : ∀ node ∈ search.stack, node ∉ active → ∀ target, graph.Edge node target →
    search.Entered target

/-- A path from the node to the node on the stack that has a given number. -/
def LeadsBack (graph : Digraph) (search : Search) (node number : Nat) : Prop :=
  ∃ back ∈ search.stack, search.order back = number ∧ graph.Reaches node back

/-- What a part of the search keeps. It puts the nodes `above` on the stack. -/
structure Extends (before after : Search) (above : List Nat) : Prop where
  stack_eq : after.stack = above ++ before.stack
  entered : ∀ node, before.Entered node → after.Entered node
  order_eq : ∀ node, before.Entered node → after.order node = before.order node
  lowlink_eq : ∀ node, before.Entered node → after.lowlink node = before.lowlink node
  le_order : ∀ node ∈ above, before.nextIndex ≤ after.order node
  nextIndex_le : before.nextIndex ≤ after.nextIndex

/-- What holds after some edges of a node have been followed. -/
structure Scanned (graph : Digraph) (before during : Search) (node : Nat) (targets above : List Nat) : Prop
    extends Extends before during (above ++ [node]) where
  order_self : during.order node = before.nextIndex
  lowlink_le : during.lowlink node ≤ before.nextIndex
  leadsBack : LeadsBack graph during node (during.lowlink node)
  lowlink_le_above : ∀ source ∈ above, ∀ target ∈ before.stack, graph.Edge source target →
    during.lowlink node ≤ before.order target
  entered_targets : ∀ target ∈ targets, during.Entered target
  lowlink_le_targets : ∀ target ∈ targets, target ∈ before.stack →
    during.lowlink node ≤ before.order target

/-- What a visit of a node does. -/
structure Visited (graph : Digraph) (before after : Search) (node : Nat) (above : List Nat) : Prop
    extends Extends before after above where
  entered_self : after.Entered node
  lowlink_le_above : ∀ source ∈ above, ∀ target ∈ before.stack, graph.Edge source target →
    after.lowlink node ≤ before.order target
  leadsBack : before.nextIndex ≤ after.lowlink node ∨ LeadsBack graph after node (after.lowlink node)

variable {graph : Digraph} {active above targets : List Nat}

theorem Sound.entered_of_stack (sound : Sound graph search active) (member : node ∈ search.stack) :
    search.Entered node :=
  (sound.entered_iff node).2 (.inl member)

theorem Sound.stack_nodup (sound : Sound graph search active) : search.stack.Nodup :=
  sound.descending.imp fun less same => by simp [same] at less

/-- Lowlinks are no part of the invariant. -/
theorem Sound.lower (sound : Sound graph search active) : Sound graph (search.lower node bound) active :=
  ⟨sound.complete, sound.entered_iff, sound.apart, sound.isNode, sound.descending, sound.order_lt,
    sound.onStack, sound.reachesAbove, sound.reachesActive, sound.followed⟩

theorem Sound.enter (sound : Sound graph search active) (isNode : node < graph.size)
    (fresh : ¬search.Entered node) (reached : ∀ other ∈ active, graph.Reaches other node) :
    Sound graph (search.enter node) (node :: active) := by
  have same {other : Nat} (member : other ∈ search.stack) :
      (search.enter node).order other = search.order other :=
    order_enter_of_entered fresh (sound.entered_of_stack member)
  have own : (search.enter node).order node = search.nextIndex := by simp [order_enter]
  have onStack : (search.enter node).stack = node :: search.stack := rfl
  constructor
  case complete => exact sound.complete
  case entered_iff =>
    intro other
    rw [entered_enter, sound.entered_iff, onStack, List.mem_cons, or_assoc]
    rfl
  case apart =>
    intro other member
    rcases List.mem_cons.1 member with rfl | member
    · exact fun inside => fresh ((sound.entered_iff other).2 (.inr inside))
    · exact sound.apart other member
  case isNode =>
    intro other member
    rcases List.mem_cons.1 member with rfl | member
    · exact isNode
    · exact sound.isNode other member
  case descending =>
    refine List.pairwise_cons.2 ⟨fun other member => ?_, ?_⟩
    · rw [same member, own]
      exact sound.order_lt other member
    · refine sound.descending.imp_of_mem fun inFirst inSecond less => ?_
      rwa [same inFirst, same inSecond]
  case order_lt =>
    intro other member
    refine Nat.lt_succ_of_le ?_
    rcases List.mem_cons.1 member with rfl | member
    · exact own.le
    · exact (same member).trans_le (sound.order_lt other member).le
  case onStack =>
    intro other member
    rcases List.mem_cons.1 member with rfl | member
    · exact List.mem_cons_self
    · exact List.mem_cons_of_mem _ (sound.onStack other member)
  case reachesAbove =>
    intro source isActive other member less
    rcases List.mem_cons.1 isActive with rfl | earlier <;> rcases List.mem_cons.1 member with rfl | below
    · exact .refl
    · have := sound.order_lt other below
      rw [own, same below] at less
      omega
    · exact reached source earlier
    · rw [same below, same (sound.onStack source earlier)] at less
      exact sound.reachesAbove source earlier other below less
  case reachesActive =>
    intro other member
    rcases List.mem_cons.1 member with rfl | member
    · exact ⟨other, List.mem_cons_self, le_rfl, .refl⟩
    · obtain ⟨back, isActive, less, path⟩ := sound.reachesActive other member
      refine ⟨back, List.mem_cons_of_mem _ isActive, ?_, path⟩
      rwa [same member, same (sound.onStack back isActive)]
  case followed =>
    intro other member inactive target edge
    rcases List.mem_cons.1 member with rfl | member
    · exact absurd List.mem_cons_self inactive
    · refine entered_enter.2 (.inr (sound.followed other member ?_ target edge))
      exact fun isActive => inactive (List.mem_cons_of_mem _ isActive)

theorem Extends.trans {middle : Search} {upper lower : List Nat} (first : Extends before middle lower)
    (second : Extends middle after upper) (entered : ∀ node ∈ lower, middle.Entered node) :
    Extends before after (upper ++ lower) where
  stack_eq := by rw [second.stack_eq, first.stack_eq, List.append_assoc]
  entered node known := second.entered node (first.entered node known)
  order_eq node known := (second.order_eq node (first.entered node known)).trans (first.order_eq node known)
  lowlink_eq node known :=
    (second.lowlink_eq node (first.entered node known)).trans (first.lowlink_eq node known)
  le_order node member := by
    rcases List.mem_append.1 member with inUpper | inLower
    · exact first.nextIndex_le.trans (second.le_order node inUpper)
    · rw [second.order_eq node (entered node inLower)]
      exact first.le_order node inLower
  nextIndex_le := first.nextIndex_le.trans second.nextIndex_le

/-- Before any edge of a node is followed. -/
theorem Scanned.enter (fresh : ¬before.Entered node) : Scanned graph before (before.enter node) node [] [] where
  stack_eq := rfl
  entered other known := entered_enter.2 (.inr known)
  order_eq other known := order_enter_of_entered fresh known
  lowlink_eq other known := by
    rw [lowlink_enter, if_neg]
    rintro rfl
    exact fresh known
  le_order other member := by
    obtain rfl := List.mem_singleton.1 member
    simp [order_enter]
  nextIndex_le := Nat.le_succ _
  order_self := by simp [order_enter]
  lowlink_le := by simp [lowlink_enter]
  leadsBack := ⟨node, List.mem_cons_self, by simp [order_enter, lowlink_enter], .refl⟩
  lowlink_le_above := by simp
  entered_targets := by simp
  lowlink_le_targets := by simp

theorem Extends.refl (search : Search) : Extends search search [] :=
  ⟨rfl, fun _ => id, fun _ _ => rfl, fun _ _ => rfl, by simp, le_rfl⟩

/-- Lowering a lowlink below `limit` by a number that is late or leads back. -/
theorem LeadsBack.lower {limit number : Nat} (leadsBack : LeadsBack graph search node number)
    (early : number ≤ limit) (next : limit ≤ bound ∨ LeadsBack graph search node bound) :
    LeadsBack graph search node (min number bound) := by
  rcases le_total number bound with less | less
  · rwa [min_eq_left less]
  · rw [min_eq_right less]
    rcases next with late | leads
    · rwa [Nat.le_antisymm less (early.trans late)]
    · exact leads

/-- Following one more edge, to `target`. It may put nodes on the stack, and it lowers the lowlink of the node to
`bound`, which is low enough for all edges from these nodes and for the edge itself. -/
theorem Scanned.lower {upper : List Nat} (scanned : Scanned graph before during node targets above)
    (sound : Sound graph during (node :: active)) (fresh : ¬before.Entered node)
    (grown : Extends during after upper) (entered : after.Entered target)
    (leadsBack : before.nextIndex ≤ bound ∨ LeadsBack graph after node bound)
    (enoughAbove : ∀ source ∈ upper, ∀ other ∈ before.stack, graph.Edge source other →
      bound ≤ before.order other)
    (enough : target ∈ before.stack → bound ≤ before.order target) :
    Scanned graph before (after.lower node bound) node (targets ++ [target]) (upper ++ above) := by
  have self : during.Entered node := sound.entered_of_stack (sound.onStack node List.mem_cons_self)
  have own : (after.lower node bound).lowlink node = min (during.lowlink node) bound := by
    rw [lowlink_lower, if_pos rfl, grown.lowlink_eq node self]
  have onto := scanned.toExtends.trans grown fun other member =>
    sound.entered_of_stack (scanned.stack_eq ▸ List.mem_append_left _ member)
  rw [← List.append_assoc] at onto
  have lowLeft : (after.lower node bound).lowlink node ≤ during.lowlink node := own.trans_le (min_le_left _ _)
  have lowRight : (after.lower node bound).lowlink node ≤ bound := own.trans_le (min_le_right _ _)
  refine ⟨⟨onto.stack_eq, onto.entered, onto.order_eq, fun other known => ?_, onto.le_order,
    onto.nextIndex_le⟩, ?_, lowLeft.trans scanned.lowlink_le, ?_, ?_, ?_, ?_⟩
  · rw [lowlink_lower, if_neg]
    · exact onto.lowlink_eq other known
    · rintro rfl
      exact fresh known
  · exact (grown.order_eq node self).trans scanned.order_self
  · rw [own]
    refine LeadsBack.lower ?_ scanned.lowlink_le leadsBack
    obtain ⟨back, onStack, number, path⟩ := scanned.leadsBack
    refine ⟨back, ?_, ?_, path⟩
    · exact grown.stack_eq ▸ List.mem_append_right _ onStack
    · exact (grown.order_eq back (sound.entered_of_stack onStack)).trans number
  · intro source member other onStack edge
    rcases List.mem_append.1 member with inUpper | inAbove
    · exact lowRight.trans (enoughAbove source inUpper other onStack edge)
    · exact lowLeft.trans (scanned.lowlink_le_above source inAbove other onStack edge)
  · intro other member
    rcases List.mem_append.1 member with earlier | last
    · exact grown.entered other (scanned.entered_targets other earlier)
    · exact List.mem_singleton.1 last ▸ entered
  · intro other member onStack
    rcases List.mem_append.1 member with earlier | last
    · exact lowLeft.trans (scanned.lowlink_le_targets other earlier onStack)
    · obtain rfl := List.mem_singleton.1 last
      exact lowRight.trans (enough onStack)

/-- How many nodes a search can still enter. -/
def unentered (graph : Digraph) (search : Search) : Nat :=
  (graph.nodes.filter fun node => (search.index? node).isNone).length

theorem unentered_le (grows : ∀ node, before.Entered node → after.Entered node) :
    unentered graph after ≤ unentered graph before := by
  refine (List.monotone_filter_right graph.nodes fun node outside => ?_).length_le
  rw [Option.isNone_iff_eq_none] at outside ⊢
  exact of_not_not fun entered => grows node entered outside

theorem unentered_enter_lt (isNode : node < graph.size) (fresh : ¬search.Entered node) :
    unentered graph (search.enter node) < unentered graph search := by
  have split : (graph.nodes.filter fun other => ((search.enter node).index? other).isNone) =
      (graph.nodes.filter fun other => (search.index? other).isNone).filter (· ≠ node) := by
    rw [List.filter_filter]
    refine List.filter_congr fun other _ => ?_
    rw [index?_enter]
    split <;> simp_all
  rw [unentered, unentered, split]
  refine List.length_filter_lt_length_iff_exists.2 ⟨node, ?_, by simp⟩
  simpa [Digraph.nodes, isNode, Entered] using fresh

/-- What a visit has to do, provided that it may nest as deep as there are nodes left to enter. -/
def Visits (graph : Digraph) (visit : Search → Nat → Search) (depth : Nat) : Prop :=
  ∀ search active node, Sound graph search active → node < graph.size → ¬search.Entered node →
    (∀ other ∈ active, graph.Reaches other node) → unentered graph search ≤ depth →
    ∃ above, Visited graph search (visit search node) node above ∧ Sound graph (visit search node) active

/-- Following an edge to a node that has not been entered. -/
theorem Scanned.descend {visit : Search → Nat → Search} {depth : Nat} (visits : Visits graph visit depth)
    (closed : graph.Closed) (scanned : Scanned graph before during node targets above)
    (soundBefore : Sound graph before active) (sound : Sound graph during (node :: active))
    (fresh : ¬before.Entered node) (reached : ∀ other ∈ active, graph.Reaches other node)
    (enough : unentered graph (before.enter node) ≤ depth) (edge : graph.Edge node target)
    (unknown : ¬during.Entered target) :
    ∃ above, Scanned graph before ((visit during target).lower node ((visit during target).lowlink target)) node
        (targets ++ [target]) above ∧
      Sound graph ((visit during target).lower node ((visit during target).lowlink target)) (node :: active) := by
  have reachedTarget : ∀ other ∈ node :: active, graph.Reaches other target := by
    intro other member
    rcases List.mem_cons.1 member with rfl | earlier
    · exact .single edge
    · exact (reached other earlier).tail edge
  have grows : ∀ other, (before.enter node).Entered other → during.Entered other := by
    intro other known
    rcases entered_enter.1 known with rfl | known
    · exact sound.entered_of_stack (sound.onStack other List.mem_cons_self)
    · exact scanned.entered other known
  obtain ⟨upper, visited, soundAfter⟩ :=
    visits during (node :: active) target sound (closed node target edge) unknown reachedTarget
      ((unentered_le grows).trans enough)
  have below {other : Nat} (onStack : other ∈ before.stack) :
      other ∈ during.stack ∧ during.order other = before.order other :=
    ⟨scanned.stack_eq ▸ List.mem_append_right _ onStack,
      scanned.order_eq other (soundBefore.entered_of_stack onStack)⟩
  refine ⟨upper ++ above, ?_, soundAfter.lower⟩
  refine scanned.lower sound fresh visited.toExtends visited.entered_self ?_ ?_ ?_
  · refine visited.leadsBack.imp scanned.nextIndex_le.trans ?_
    rintro ⟨back, onStack, number, path⟩
    exact ⟨back, onStack, number, path.head edge⟩
  · intro source member other onStack leads
    rw [← (below onStack).2]
    exact visited.lowlink_le_above source member other (below onStack).1 leads
  · exact fun onStack => absurd (sound.entered_of_stack (below onStack).1) unknown

/-- Following an edge to a node of an earlier component. -/
theorem Scanned.skip (scanned : Scanned graph before during node targets above) (known : during.Entered target)
    (outside : target ∉ before.stack) : Scanned graph before during node (targets ++ [target]) above := by
  refine { scanned with entered_targets := ?_, lowlink_le_targets := ?_ }
  · intro other member
    rcases List.mem_append.1 member with earlier | last
    · exact scanned.entered_targets other earlier
    · exact List.mem_singleton.1 last ▸ known
  · intro other member inBefore
    rcases List.mem_append.1 member with earlier | last
    · exact scanned.lowlink_le_targets other earlier inBefore
    · exact absurd (List.mem_singleton.1 last ▸ inBefore) outside

/-- Following an edge. -/
theorem Scanned.follow {visit : Search → Nat → Search} {depth : Nat} (visits : Visits graph visit depth)
    (closed : graph.Closed) (scanned : Scanned graph before during node targets above)
    (soundBefore : Sound graph before active) (sound : Sound graph during (node :: active))
    (fresh : ¬before.Entered node) (reached : ∀ other ∈ active, graph.Reaches other node)
    (enough : unentered graph (before.enter node) ≤ depth) (edge : graph.Edge node target) :
    ∃ above, Scanned graph before (follow visit node during target) node (targets ++ [target]) above ∧
      Sound graph (follow visit node during target) (node :: active) := by
  cases found : during.index? target with
  | none =>
      have unknown : ¬during.Entered target := by simp [Entered, found]
      simp only [Search.follow, found]
      exact scanned.descend visits closed soundBefore sound fresh reached enough edge unknown
  | some index =>
      have known : during.Entered target := by simp [Entered, found]
      by_cases onStack : target ∈ during.stack
      · have number : during.order target = index := by simp [order, found]
        simp only [Search.follow, found, List.contains_iff_mem, onStack, if_true]
        refine ⟨[] ++ above, scanned.lower sound fresh (.refl during) known
          (.inr ⟨target, onStack, number, .single edge⟩) (by simp) fun member => ?_, sound.lower⟩
        rw [← number, scanned.order_eq target (soundBefore.entered_of_stack member)]
      · have outside : target ∉ before.stack :=
          fun member => onStack (scanned.stack_eq ▸ List.mem_append_right _ member)
        simp only [Search.follow, found, List.contains_iff_mem, onStack, if_false]
        exact ⟨above, scanned.skip known outside, sound⟩

/-- Leaving a node that leads back to an active one. -/
theorem Sound.deactivate (sound : Sound graph search (node :: active))
    (leadsBack : ∃ back ∈ active, search.order back ≤ search.order node ∧ graph.Reaches node back)
    (followed : ∀ target, graph.Edge node target → search.Entered target) : Sound graph search active := by
  refine ⟨sound.complete, sound.entered_iff, sound.apart, sound.isNode, sound.descending, sound.order_lt,
    fun other member => sound.onStack other (List.mem_cons_of_mem _ member),
    fun other member => sound.reachesAbove other (List.mem_cons_of_mem _ member), ?_, ?_⟩
  · intro other onStack
    obtain ⟨back, member, less, path⟩ := sound.reachesActive other onStack
    rcases List.mem_cons.1 member with rfl | isActive
    · obtain ⟨further, isActive, lesser, onward⟩ := leadsBack
      exact ⟨further, isActive, lesser.trans less, path.trans onward⟩
    · exact ⟨back, isActive, less, path⟩
  · intro other onStack inactive target edge
    by_cases same : other = node
    · exact followed target (same ▸ edge)
    · exact sound.followed other onStack (by simp [same, inactive]) target edge

theorem mem_stack_of_above {below : List Nat} (stack : search.stack = above ++ node :: below)
    (member : other ∈ above ++ [node]) : other ∈ search.stack := by
  rw [stack]
  simp only [List.mem_append, List.mem_cons] at member ⊢
  tauto

section Closing

variable {below : List Nat} (sound : Sound graph search (node :: active))
  (stack : search.stack = above ++ node :: below) (activeBelow : ∀ other ∈ active, other ∈ below)
  (leadsNoFurther : ∀ source ∈ above ++ [node], ∀ target, graph.Edge source target →
    search.Entered target ∧ target ∉ below)

include sound stack

theorem Sound.order_lt_of_below (member : other ∈ below) : search.order other < search.order node := by
  have descending := sound.descending
  rw [stack] at descending
  exact List.rel_of_pairwise_cons (List.pairwise_append.1 descending).2.1 member

theorem Sound.order_le_of_above (member : other ∈ above ++ [node]) : search.order node ≤ search.order other := by
  have descending := sound.descending
  rw [stack] at descending
  rcases List.mem_append.1 member with isAbove | isNode
  · exact ((List.pairwise_append.1 descending).2.2 other isAbove node List.mem_cons_self).le
  · rw [List.mem_singleton.1 isNode]

theorem Sound.not_below_of_above (member : other ∈ above ++ [node]) : other ∉ below :=
  fun isBelow => absurd (sound.order_lt_of_below stack isBelow) (sound.order_le_of_above stack member).not_gt

include activeBelow leadsNoFurther

/-- The nodes from `node` on up are those that `node` is linked to. -/
theorem Sound.mem_above_iff : other ∈ above ++ [node] ↔ graph.Linked node other := by
  have onStack {other : Nat} (member : other ∈ above ++ [node]) : other ∈ search.stack :=
    mem_stack_of_above stack member
  have nodeOnStack : node ∈ search.stack := onStack (by simp)
  constructor
  · intro member
    refine ⟨sound.reachesAbove node List.mem_cons_self other (onStack member)
      (sound.order_le_of_above stack member), ?_⟩
    obtain ⟨back, isActive, -, path⟩ := sound.reachesActive other (onStack member)
    rcases List.mem_cons.1 isActive with rfl | earlier
    · exact path
    · -- An active node from before reaches `node`, since it is below it.
      exact path.trans (sound.reachesAbove back isActive node nodeOnStack
        (sound.order_lt_of_below stack (activeBelow back earlier)).le)
  · rintro ⟨path, back⟩
    have inside : other ∈ above ++ [node] ∨ other ∈ search.components.flatten := by
      clear back
      induction path with
      | refl => exact .inl (by simp)
      | @tail source target _ edge ih =>
          rcases ih with isAbove | inFlatten
          · obtain ⟨entered, notBelow⟩ := leadsNoFurther source isAbove target edge
            refine ((sound.entered_iff target).1 entered).imp_left fun onStack => ?_
            rw [stack] at onStack
            simp only [List.mem_append, List.mem_cons] at onStack ⊢
            tauto
          · exact .inr (sound.complete.mem_of_edge inFlatten edge)
    refine inside.resolve_right fun inFlatten => ?_
    exact sound.apart node nodeOnStack (sound.complete.mem_of_reaches inFlatten back)

/-- Leaving a node that leads back to none before itself. -/
theorem Sound.close :
    Sound graph { search with
      stack := below
      components := search.components ++ [ascending (above ++ [node])] } active := by
  have onStack {other : Nat} (member : other ∈ below) : other ∈ search.stack := by simp [stack, member]
  have aboveOnStack {other : Nat} (member : other ∈ above ++ [node]) : other ∈ search.stack :=
    mem_stack_of_above stack member
  have inOrder : (ascending (above ++ [node])).Sublist graph.nodes := by
    refine ascending_sublist_range ?_ fun other member => sound.isNode other (aboveOnStack member)
    have once : (above ++ [node] ++ below).Nodup := by simpa [stack] using sound.stack_nodup
    exact once.of_append_left
  have flatten (other : Nat) :
      other ∈ (search.components ++ [ascending (above ++ [node])]).flatten ↔
        other ∈ search.components.flatten ∨ other ∈ above ++ [node] := by
    rw [List.flatten_append, List.mem_append, List.flatten_singleton, mem_ascending]
  have entered_iff (other : Nat) : search.Entered other ↔
      other ∈ below ∨ other ∈ search.components.flatten ∨ other ∈ above ++ [node] := by
    rw [sound.entered_iff, stack]
    simp only [List.mem_append, List.mem_cons]
    tauto
  constructor
  case complete =>
    refine .more sound.complete inOrder (mem_ascending.2 (List.mem_append_right above List.mem_cons_self)) ?_ ?_ ?_
    · exact fun other => mem_ascending.trans (sound.mem_above_iff stack activeBelow leadsNoFurther)
    · intro other member
      exact sound.apart other (aboveOnStack (mem_ascending.1 member))
    · intro source member target edge
      obtain ⟨entered, notBelow⟩ := leadsNoFurther source (mem_ascending.1 member) target edge
      rw [mem_ascending]
      exact (((entered_iff target).1 entered).resolve_left notBelow).symm
  case entered_iff => exact fun other => (entered_iff other).trans (or_congr_right (flatten other).symm)
  case apart =>
    intro other member inside
    rcases (flatten other).1 inside with inFlatten | inLast
    · exact sound.apart other (onStack member) inFlatten
    · exact sound.not_below_of_above stack inLast member
  case isNode => exact fun other member => sound.isNode other (onStack member)
  case descending =>
    have descending := sound.descending
    rw [stack] at descending
    exact (List.pairwise_append.1 descending).2.1.of_cons
  case order_lt => exact fun other member => sound.order_lt other (onStack member)
  case onStack => exact activeBelow
  case reachesAbove =>
    intro source isActive other member
    exact sound.reachesAbove source (List.mem_cons_of_mem _ isActive) other (onStack member)
  case reachesActive =>
    intro other member
    obtain ⟨back, isActive, less, path⟩ := sound.reachesActive other (onStack member)
    rcases List.mem_cons.1 isActive with rfl | earlier
    · exact absurd (sound.order_lt_of_below stack member) less.not_gt
    · exact ⟨back, earlier, less, path⟩
  case followed =>
    intro other member inactive target edge
    refine sound.followed other (onStack member) ?_ target edge
    rw [List.mem_cons, not_or]
    refine ⟨?_, inactive⟩
    rintro rfl
    exact sound.not_below_of_above stack (by simp) member

end Closing

section Leaving

variable (scanned : Scanned graph before during node (graph.next node) above)
  (soundBefore : Sound graph before active) (sound : Sound graph during (node :: active))

include scanned

theorem Scanned.stack_eq_cons : during.stack = above ++ node :: before.stack := by
  simp [scanned.stack_eq]

/-- The lowlink is low enough for every edge from the node, or from one above it, to the stack below. -/
theorem Scanned.lowlink_le_of_edge {source : Nat} (member : source ∈ above ++ [node]) (onStack : target ∈ before.stack)
    (edge : graph.Edge source target) : during.lowlink node ≤ before.order target := by
  rcases List.mem_append.1 member with isAbove | isNode
  · exact scanned.lowlink_le_above source isAbove target onStack edge
  · rw [List.mem_singleton.1 isNode] at edge
    exact scanned.lowlink_le_targets target edge onStack

include soundBefore

/-- A node whose lowlink is less than its own number leads back to a node that is still active. -/
theorem Scanned.exists_active (early : during.lowlink node < before.nextIndex) :
    ∃ back ∈ active, during.order back ≤ during.order node ∧ graph.Reaches node back := by
  obtain ⟨back, onStack, number, path⟩ := scanned.leadsBack
  have inBefore : back ∈ before.stack := by
    rw [scanned.stack_eq] at onStack
    refine (List.mem_append.1 onStack).resolve_left fun late => ?_
    have := scanned.le_order back late
    omega
  obtain ⟨further, isActive, less, onward⟩ := soundBefore.reachesActive back inBefore
  refine ⟨further, isActive, ?_, path.trans onward⟩
  rw [scanned.order_eq further (soundBefore.entered_of_stack (soundBefore.onStack further isActive)),
    scanned.order_self]
  exact (less.trans_lt (soundBefore.order_lt back inBefore)).le

include sound

/-- From a node whose lowlink is its own number, no edge leads below it on the stack. -/
theorem Scanned.leadsNoFurther (isRoot : during.lowlink node = before.nextIndex) :
    ∀ source ∈ above ++ [node], ∀ target, graph.Edge source target →
      during.Entered target ∧ target ∉ before.stack := by
  intro source member target edge
  refine ⟨?_, fun onStack => ?_⟩
  · by_cases isNode : source = node
    · exact scanned.entered_targets target (isNode ▸ edge)
    · have inactive : source ∉ node :: active := by
        rw [List.mem_cons, not_or]
        exact ⟨isNode, fun isActive =>
          sound.not_below_of_above scanned.stack_eq_cons member (soundBefore.onStack source isActive)⟩
      exact sound.followed source (mem_stack_of_above scanned.stack_eq_cons member) inactive target edge
  · have := scanned.lowlink_le_of_edge member onStack edge
    have := soundBefore.order_lt target onStack
    omega

/-- Leaving a node when all its edges have been followed. -/
theorem Scanned.leave : ∃ above, Visited graph before (Search.leave during node) node above ∧
    Sound graph (Search.leave during node) active := by
  have stack := scanned.stack_eq_cons
  have entered : during.Entered node := sound.entered_of_stack (sound.onStack node List.mem_cons_self)
  have index : during.index? node = some before.nextIndex := by
    rw [← scanned.order_self, order]
    cases found : during.index? node with
    | none => exact absurd found entered
    | some index => rfl
  -- The lowlink is the node's own number exactly if the node is the first of its component.
  by_cases isRoot : during.lowlink node = before.nextIndex
  · have outside : node ∉ above := fun member =>
      (List.nodup_append.1 (stack ▸ sound.stack_nodup)).2.2 node member node List.mem_cons_self rfl
    have closes : Search.leave during node =
        { during with
          stack := before.stack
          components := during.components ++ [ascending (above ++ [node])] } := by
      simp [Search.leave, index, isRoot, stack, takeThrough_append outside]
    rw [closes]
    refine ⟨[], ?_, sound.close stack soundBefore.onStack (scanned.leadsNoFurther soundBefore sound isRoot)⟩
    exact ⟨⟨rfl, scanned.entered, scanned.order_eq, scanned.lowlink_eq, by simp, scanned.nextIndex_le⟩, entered,
      by simp, .inl isRoot.ge⟩
  · have stays : Search.leave during node = during := by
      simp [Search.leave, index, Ne.symm isRoot]
    have early : during.lowlink node < before.nextIndex := Nat.lt_of_le_of_ne scanned.lowlink_le isRoot
    rw [stays]
    exact ⟨above ++ [node],
      ⟨scanned.toExtends, entered, fun source member target => scanned.lowlink_le_of_edge member, .inr scanned.leadsBack⟩,
      sound.deactivate (scanned.exists_active soundBefore early) scanned.entered_targets⟩

end Leaving

/-- Following all edges of a node. -/
theorem Scanned.followAll {visit : Search → Nat → Search} {depth : Nat} (visits : Visits graph visit depth)
    (closed : graph.Closed) (soundBefore : Sound graph before active) (fresh : ¬before.Entered node)
    (reached : ∀ other ∈ active, graph.Reaches other node)
    (enough : unentered graph (before.enter node) ≤ depth) (rest : List Nat)
    (scanned : Scanned graph before during node targets above) (sound : Sound graph during (node :: active))
    (areEdges : ∀ target ∈ rest, graph.Edge node target) :
    ∃ above, Scanned graph before (rest.foldl (Search.follow visit node) during) node (targets ++ rest) above ∧
      Sound graph (rest.foldl (Search.follow visit node) during) (node :: active) := by
  induction rest generalizing during targets above with
  | nil => exact ⟨above, by simpa using scanned, sound⟩
  | cons target rest ih =>
      obtain ⟨upper, next, soundNext⟩ := scanned.follow visits closed soundBefore sound fresh reached
        enough (areEdges target List.mem_cons_self)
      have all := ih next soundNext fun other member => areEdges other (List.mem_cons_of_mem _ member)
      rwa [List.append_assoc] at all

theorem visit_visits (closed : graph.Closed) (depth : Nat) : Visits graph (graph.visit depth) depth := by
  induction depth with
  | zero =>
      intro search active node _ isNode fresh _ enough
      have := unentered_enter_lt isNode fresh
      omega
  | succ depth ih =>
      intro search active node sound isNode fresh reached enough
      have fewer := unentered_enter_lt isNode fresh
      obtain ⟨above, scanned, soundInside⟩ := Scanned.followAll ih closed sound fresh reached (by omega)
        (graph.next node) (Scanned.enter fresh) (sound.enter isNode fresh reached) fun _ => id
      exact scanned.leave sound soundInside

theorem sound_start (graph : Digraph) : Sound graph start [] := by
  refine ⟨.none, ?_, ?_, ?_, .nil, ?_, ?_, ?_, ?_, ?_⟩ <;> simp [start, Entered, index?]

/-- Between two visits that are not nested the stack is empty. -/
theorem Sound.stack_eq_nil (sound : Sound graph search []) : search.stack = [] := by
  refine List.eq_nil_iff_forall_not_mem.2 fun node onStack => ?_
  obtain ⟨_, isActive, _⟩ := sound.reachesActive node onStack
  simp at isActive

theorem Sound.visitOnce (closed : graph.Closed) (sound : Sound graph search []) (isNode : node < graph.size) :
    Sound graph (graph.visitOnce search node) [] ∧
      ∀ other, other = node ∨ search.Entered other → (graph.visitOnce search node).Entered other := by
  cases found : search.index? node with
  | none =>
      have enough : unentered graph search ≤ graph.size :=
        (List.length_filter_le _ graph.nodes).trans_eq List.length_range
      obtain ⟨_, visited, soundAfter⟩ :=
        visit_visits closed graph.size search [] node sound isNode (by simp [Entered, found]) (by simp) enough
      rw [Digraph.visitOnce, found]
      refine ⟨soundAfter, fun other known => ?_⟩
      rcases known with rfl | known
      · exact visited.entered_self
      · exact visited.entered other known
  | some index =>
      rw [Digraph.visitOnce, found]
      refine ⟨sound, fun other known => ?_⟩
      rcases known with rfl | known
      · simp [Entered, found]
      · exact known

theorem Sound.visitAll (closed : graph.Closed) (nodes : List Nat) (areNodes : ∀ node ∈ nodes, node < graph.size)
    (sound : Sound graph search []) :
    Sound graph (nodes.foldl graph.visitOnce search) [] ∧
      ∀ node, node ∈ nodes ∨ search.Entered node → (nodes.foldl graph.visitOnce search).Entered node := by
  induction nodes generalizing search with
  | nil => simpa using sound
  | cons node nodes ih =>
      obtain ⟨soundNext, enters⟩ := sound.visitOnce closed (areNodes node List.mem_cons_self)
      obtain ⟨soundAll, entersAll⟩ :=
        ih (fun other member => areNodes other (List.mem_cons_of_mem _ member)) soundNext
      refine ⟨soundAll, fun other known => entersAll other ?_⟩
      rw [List.mem_cons, or_comm (a := other = node), or_assoc] at known
      exact known.imp_right (enters other)

end Search

namespace Digraph

/-- The search ends with complete components that have all nodes. -/
theorem components_complete {graph : Digraph} (closed : graph.Closed) :
    graph.Complete graph.components ∧ ∀ node < graph.size, node ∈ graph.components.flatten := by
  obtain ⟨sound, entered⟩ := (Search.sound_start graph).visitAll closed graph.nodes (by simp [nodes])
  refine ⟨sound.complete, fun node isNode => ?_⟩
  have known := (sound.entered_iff node).1 (entered node (.inl (by simpa [nodes] using isNode)))
  rw [sound.stack_eq_nil] at known
  exact known.resolve_left List.not_mem_nil

end Digraph

end DatalogRam.Analysis
