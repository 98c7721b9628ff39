import DatalogRam.Proofs.Analysis.Recursion
import Mathlib.Algebra.Order.BigOperators.Group.List
import Mathlib.Algebra.Order.Ring.Nat

/-!
# The search for recursive clauses

The head of a clause is looked for from the positive atoms of its body with a stack of names to be looked at and
the names seen so far. A name is looked at when it is taken from the stack and not seen yet: the names to which it
leads go on the stack, unless one of them is the head, which ends the search. The stack may hold a name several
times, so what shrinks with every step is the stack together with the edges that leave unseen names.

What carries the search is that names seen lead neither to the head nor to names that are neither seen nor on the
stack. So a path from a seen name to the head crosses the stack.
-/

namespace DatalogRam.Analysis

section Worklist

variable {α : Type} [DecidableEq α]

/-- The state of a search: what has been looked at, and a stack of what is to be looked at. -/
structure Worklist (α : Type) where
  visited : List α
  waiting : List α

/-- Puts elements on the stack one after the other. There is no result if one of them is the target. -/
def push (target : α) : List α → List α → Option (List α)
  | [], waiting => some waiting
  | element :: rest, waiting =>
      if element = target then none else push target rest (element :: waiting)

/-- One round of the search: the next state, or the answer. -/
def Worklist.step (next : α → List α) (target : α) (search : Worklist α) : Worklist α ⊕ Bool :=
  match search.waiting with
  | [] => .inr false
  | current :: waiting =>
      if current ∈ search.visited then .inl { search with waiting }
      else
        match push target (next current) waiting with
        | none => .inr true
        | some waiting => .inl ⟨current :: search.visited, waiting⟩

/-- After some rounds the search has the answer. -/
inductive Worklist.Ends (next : α → List α) (target : α) : Worklist α → Bool → Prop where
  | now {search : Worklist α} {answer : Bool} : search.step next target = .inr answer →
      Ends next target search answer
  | later {search following : Worklist α} {answer : Bool} : search.step next target = .inl following →
      Ends next target following answer → Ends next target search answer

/-- What a round can do. -/
inductive Worklist.Round (next : α → List α) (target : α) (search : Worklist α) : Worklist α ⊕ Bool → Prop where
  | empty : search.waiting = [] → Round next target search (.inr false)
  | seen {current : α} {waiting : List α} : search.waiting = current :: waiting → current ∈ search.visited →
      Round next target search (.inl { search with waiting })
  | found {current : α} {waiting : List α} : search.waiting = current :: waiting → current ∉ search.visited →
      target ∈ next current → Round next target search (.inr true)
  | opened {current : α} {waiting : List α} : search.waiting = current :: waiting → current ∉ search.visited →
      target ∉ next current →
      Round next target search (.inl ⟨current :: search.visited, (next current).reverse ++ waiting⟩)

theorem push_eq {target : α} {elements waiting : List α} :
    push target elements waiting = if target ∈ elements then none else some (elements.reverse ++ waiting) := by
  induction elements generalizing waiting with
  | nil => simp [push]
  | cons element rest ih =>
      by_cases same : element = target
      · simp [push, same]
      · simp [push, same, Ne.symm same, ih]

theorem push_eq_none_iff {target : α} {elements waiting : List α} :
    push target elements waiting = none ↔ target ∈ elements := by
  simp [push_eq]

namespace Worklist

variable {next : α → List α} {target : α}

theorem round (next : α → List α) (target : α) (search : Worklist α) :
    Round next target search (search.step next target) := by
  rw [step]
  cases stack : search.waiting with
  | nil => exact .empty stack
  | cons current waiting =>
      by_cases old : current ∈ search.visited
      · simp only [if_pos old]
        exact .seen stack old
      · by_cases direct : target ∈ next current
        · simp only [if_neg old, push_eq, if_pos direct]
          exact .found stack old direct
        · simp only [if_neg old, push_eq, if_neg direct]
          exact .opened stack old direct

/-- An element from which the target is one or more edges away. -/
def Before (next : α → List α) (target element : α) : Prop :=
  Relation.TransGen (fun source following => following ∈ next source) element target

/-- What has been looked at leads only to what is seen or waiting, and not to the target. -/
def Closed (next : α → List α) (target : α) (search : Worklist α) : Prop :=
  ∀ element ∈ search.visited, ∀ following ∈ next element,
    following ≠ target ∧ (following ∈ search.visited ∨ following ∈ search.waiting)

/-- The target can be reached from the stack. -/
def Promising (next : α → List α) (target : α) (search : Worklist α) : Prop :=
  ∃ element ∈ search.waiting, Before next target element

/-- A path from a seen element to the target passes through a waiting element that is not seen. -/
theorem Closed.exists_unseen {search : Worklist α} (closed : Closed next target search) {element : α}
    (old : element ∈ search.visited) (before : Before next target element) :
    ∃ other ∈ search.waiting, other ∉ search.visited ∧ Before next target other := by
  induction before using Relation.TransGen.head_induction_on with
  | single edge => exact absurd rfl (closed _ old _ edge).1
  | @head source following edge rest ih =>
      by_cases seen : following ∈ search.visited
      · exact ih seen
      · exact ⟨following, (closed source old following edge).2.resolve_left seen, seen, rest⟩

/-- A round keeps the invariant, and whether the target can be reached from the stack. -/
theorem Closed.step {search following : Worklist α} (closed : Closed next target search)
    (goesOn : search.step next target = .inl following) :
    Closed next target following ∧ (Promising next target following ↔ Promising next target search) := by
  have cases := round next target search
  rw [goesOn] at cases
  cases cases with
  | @seen current waiting stack old =>
      constructor
      · intro element isOld other edge
        have known := closed element isOld other edge
        refine ⟨known.1, ?_⟩
        rw [stack, List.mem_cons] at known
        rcases known.2 with also | rfl | later
        · exact .inl also
        · exact .inl old
        · exact .inr later
      · constructor
        · intro ⟨element, member, before⟩
          exact ⟨element, stack ▸ List.mem_cons_of_mem current member, before⟩
        · intro ⟨element, member, before⟩
          rw [stack, List.mem_cons] at member
          rcases member with rfl | later
          · obtain ⟨other, isWaiting, unseen, path⟩ := closed.exists_unseen old before
            rw [stack, List.mem_cons] at isWaiting
            exact ⟨other, isWaiting.resolve_left (fun same => unseen (same ▸ old)), path⟩
          · exact ⟨element, later, before⟩
  | @opened current waiting stack new indirect =>
      constructor
      · intro element isOld other edge
        rcases List.mem_cons.1 isOld with rfl | older
        · refine ⟨fun same => indirect (same ▸ edge), .inr ?_⟩
          exact List.mem_append_left _ (List.mem_reverse.2 edge)
        · have known := closed element older other edge
          refine ⟨known.1, ?_⟩
          rw [stack, List.mem_cons] at known
          rcases known.2 with also | rfl | later
          · exact .inl (List.mem_cons_of_mem _ also)
          · exact .inl List.mem_cons_self
          · exact .inr (List.mem_append_right _ later)
      · constructor
        · intro ⟨element, member, before⟩
          rcases List.mem_append.1 member with successor | later
          · exact ⟨current, stack ▸ List.mem_cons_self, before.head (List.mem_reverse.1 successor)⟩
          · exact ⟨element, stack ▸ List.mem_cons_of_mem current later, before⟩
        · intro ⟨element, member, before⟩
          rw [stack, List.mem_cons] at member
          rcases member with rfl | later
          · cases before using Relation.TransGen.head_induction_on with
            | single edge => exact absurd edge indirect
            | head edge rest => exact ⟨_, List.mem_append_left _ (List.mem_reverse.2 edge), rest⟩
          · exact ⟨element, List.mem_append_right _ later, before⟩

/-- The answer of a search says whether the target can be reached from the stack. -/
theorem Ends.answer_iff {search : Worklist α} {answer : Bool} (ends : Ends next target search answer)
    (closed : Closed next target search) : answer = true ↔ Promising next target search := by
  induction ends with
  | @now search answer stops =>
      have cases := round next target search
      rw [stops] at cases
      cases cases with
      | empty stack => simp [Promising, stack]
      | @found current waiting stack new direct =>
          exact iff_of_true rfl ⟨current, stack ▸ List.mem_cons_self, .single direct⟩
  | later goesOn _ ih =>
      have kept := closed.step goesOn
      exact (ih kept.1).trans kept.2

/-- The number of edges that leave unseen elements of the domain, and the height of the stack. -/
def remaining (next : α → List α) (domain : List α) (search : Worklist α) : Nat :=
  ((domain.filter (· ∉ search.visited)).map fun element => (next element).length).sum + search.waiting.length

/-- Removing an element from a list removes at least its weight. -/
theorem sum_filter_ne_add_le (weight : α → Nat) {element : α} {elements : List α}
    (member : weight element ≠ 0 → element ∈ elements) :
    ((elements.filter (· ≠ element)).map weight).sum + weight element ≤ (elements.map weight).sum := by
  induction elements with
  | nil =>
      have weightless : weight element = 0 := by
        by_contra heavy
        exact List.not_mem_nil (member heavy)
      simp [weightless]
  | cons first rest ih =>
      by_cases same : first = element
      · have less : ((rest.filter (· ≠ element)).map weight).sum ≤ (rest.map weight).sum :=
          (List.filter_sublist.map weight).sum_le_sum fun _ _ => Nat.zero_le _
        simpa [same, Nat.add_comm] using less
      · have inRest : weight element ≠ 0 → element ∈ rest := fun heavy =>
          (List.mem_cons.1 (member heavy)).resolve_left (Ne.symm same)
        have less := ih inRest
        rw [List.filter_cons_of_pos (by simpa using same), List.map_cons, List.map_cons, List.sum_cons, List.sum_cons]
        omega

/-- Every round that does not end the search leaves less to do. -/
theorem remaining_step {domain : List α} (inside : ∀ element, next element ≠ [] → element ∈ domain)
    {search following : Worklist α} (goesOn : search.step next target = .inl following) :
    following.remaining next domain < search.remaining next domain := by
  have cases := round next target search
  rw [goesOn] at cases
  cases cases with
  | seen stack old => simp [remaining, stack]
  | @opened current waiting stack new indirect =>
      have split : domain.filter (· ∉ current :: search.visited) =
          (domain.filter (· ∉ search.visited)).filter (· ≠ current) := by
        simp [List.filter_filter]
      have unseen : (next current).length ≠ 0 → current ∈ domain.filter (· ∉ search.visited) := by
        intro heavy
        have isInside := inside current (by simpa using heavy)
        simp [isInside, new]
      have edges := sum_filter_ne_add_le (fun element => (next element).length) unseen
      rw [remaining, remaining, split, stack, List.length_append, List.length_reverse, List.length_cons]
      omega

/-- The search ends, after as many rounds as there is to do at most. -/
theorem exists_ends (target : α) {domain : List α} (inside : ∀ element, next element ≠ [] → element ∈ domain)
    (search : Worklist α) : ∃ answer, Ends next target search answer := by
  induction size : search.remaining next domain using Nat.strong_induction_on generalizing search with
  | _ size ih =>
      cases result : search.step next target with
      | inr answer => exact ⟨answer, .now result⟩
      | inl following =>
          obtain ⟨answer, ends⟩ := ih _ (size ▸ remaining_step inside result) following rfl
          exact ⟨answer, .later result ends⟩

end Worklist

end Worklist

end Analysis

/-- A step from a declared relation: to the relation of a positive atom in the body of one of its clauses, or to an
equivalence relation that is the type of one of its attributes. -/
inductive Program.LeadsTo (program : Program) : Name → Name → Prop where
  | atom {clause : Clause} {atom : Atom} : clause.head.relation ∈ program.relationNames →
      clause ∈ program.clauses → atom ∈ clause.positiveAtoms →
      LeadsTo program clause.head.relation atom.relation
  | equivalence {relation typed : Relation} {column : Attribute} : relation ∈ program.relations →
      column ∈ relation.attributes → typed ∈ program.relations → typed.name = column.type →
      typed.representation = .eqrel → LeadsTo program relation.name typed.name

namespace Analysis

variable {program : Program}

theorem mem_equivalenceTypes_iff (once : program.relationNames.Nodup) {relation : Relation} {name : Name} :
    name ∈ equivalenceTypes program relation ↔
      ∃ column ∈ relation.attributes, ∃ typed ∈ program.relations,
        typed.name = column.type ∧ typed.representation = .eqrel ∧ typed.name = name := by
  rw [equivalenceTypes, List.mem_filterMap]
  constructor
  · rintro ⟨column, isColumn, leads⟩
    split at leads
    · next typed found =>
        obtain ⟨isTyped, sameName⟩ := Program.relation?_eq_some found
        split at leads
        · next isEquivalence =>
            exact ⟨column, isColumn, typed, isTyped, sameName, isEquivalence, Option.some.inj leads⟩
        · cases leads
    · cases leads
  · rintro ⟨column, isColumn, typed, isTyped, sameName, isEquivalence, isName⟩
    have found := Program.relation?_of_mem once isTyped
    rw [sameName] at found
    exact ⟨column, isColumn, by simp [found, isEquivalence, isName]⟩

theorem mem_leadsTo_iff (once : program.relationNames.Nodup) {source target : Name} :
    target ∈ leadsTo program source ↔ program.LeadsTo source target := by
  constructor
  · intro leads
    rw [leadsTo] at leads
    split at leads
    · cases leads
    · next relation found =>
        obtain ⟨isRelation, rfl⟩ := Program.relation?_eq_some found
        rcases List.mem_append.1 leads with typed | read
        · obtain ⟨column, isColumn, typed, isTyped, sameName, isEquivalence, rfl⟩ :=
            (mem_equivalenceTypes_iff once).1 typed
          exact .equivalence isRelation isColumn isTyped sameName isEquivalence
        · obtain ⟨⟨clause, id⟩, own, member⟩ := List.mem_flatMap.1 read
          obtain ⟨position, head⟩ := Program.mem_clausesOf.1 own
          obtain ⟨atom, isAtom, rfl⟩ := List.mem_map.1 member
          have declared : clause.head.relation ∈ program.relationNames := head ▸ List.mem_map_of_mem isRelation
          exact head ▸ .atom declared (List.mem_of_getElem? position) isAtom
  · intro leads
    cases leads with
    | atom declared isClause isAtom => exact mem_leadsTo_of_positive isClause isAtom declared
    | equivalence isRelation isColumn isTyped sameName isEquivalence =>
        rw [leadsTo, Program.relation?_of_mem once isRelation]
        apply List.mem_append_left
        exact (mem_equivalenceTypes_iff once).2 ⟨_, isColumn, _, isTyped, sameName, isEquivalence, rfl⟩

/-- Names that lead somewhere are declared. -/
theorem declared_of_leadsTo {source : Name} (leads : leadsTo program source ≠ []) :
    source ∈ program.relationNames := by
  rw [leadsTo] at leads
  split at leads
  · exact absurd rfl leads
  · next relation found =>
      obtain ⟨isRelation, rfl⟩ := Program.relation?_eq_some found
      exact List.mem_map_of_mem isRelation

/-- The search for the head of a clause from the positive atoms of its body has an answer: at once if the head is among
them, otherwise by the stack that holds them. -/
inductive Searches (program : Program) (clause : Clause) : Bool → Prop where
  | direct : push clause.head.relation (clause.positiveAtoms.map Atom.relation) [] = none →
      Searches program clause true
  | stacked {waiting : List Name} {answer : Bool} :
      push clause.head.relation (clause.positiveAtoms.map Atom.relation) [] = some waiting →
      Worklist.Ends (leadsTo program) clause.head.relation ⟨[], waiting⟩ answer → Searches program clause answer

theorem exists_searches (program : Program) (clause : Clause) : ∃ answer, Searches program clause answer := by
  cases start : push clause.head.relation (clause.positiveAtoms.map Atom.relation) [] with
  | none => exact ⟨true, .direct start⟩
  | some waiting =>
      have inside : ∀ name, leadsTo program name ≠ [] → name ∈ program.relationNames := fun _ => declared_of_leadsTo
      obtain ⟨answer, ends⟩ := Worklist.exists_ends clause.head.relation inside ⟨[], waiting⟩
      exact ⟨answer, .stacked start ends⟩

/-- The head of a clause is found if it is a positive atom or one or more steps behind one. -/
theorem Searches.answer_iff {clause : Clause} {answer : Bool} (searches : Searches program clause answer) :
    answer = true ↔ ∃ atom ∈ clause.positiveAtoms, atom.relation = clause.head.relation ∨
      Worklist.Before (leadsTo program) clause.head.relation atom.relation := by
  cases searches with
  | direct start =>
      obtain ⟨atom, isAtom, same⟩ := List.mem_map.1 (push_eq_none_iff.1 start)
      exact iff_of_true rfl ⟨atom, isAtom, .inl same⟩
  | @stacked waiting _ start ends =>
      rw [push_eq, Option.ite_none_left_eq_some] at start
      obtain ⟨indirect, stack⟩ := start
      have waits (name : Name) : name ∈ waiting ↔ ∃ atom ∈ clause.positiveAtoms, atom.relation = name := by
        simp [← Option.some.inj stack]
      rw [ends.answer_iff (by intro _ old; cases old)]
      constructor
      · intro ⟨name, isWaiting, before⟩
        obtain ⟨atom, isAtom, rfl⟩ := (waits name).1 isWaiting
        exact ⟨atom, isAtom, .inr before⟩
      · intro ⟨atom, isAtom, reaches⟩
        rcases reaches with same | before
        · exact absurd (List.mem_map.2 ⟨atom, isAtom, same⟩) indirect
        · exact ⟨atom.relation, (waits _).2 ⟨atom, isAtom, rfl⟩, before⟩

/-- Paths of the search are paths of steps from declared relations. -/
theorem before_iff (once : program.relationNames.Nodup) {target name : Name} :
    Worklist.Before (leadsTo program) target name ↔ Relation.TransGen program.LeadsTo name target := by
  have steps : (fun source following => following ∈ leadsTo program source) = program.LeadsTo := by
    funext source following
    exact propext (mem_leadsTo_iff once)
  rw [Worklist.Before, steps]

/-- What is gathered finds the head exactly if the search does. -/
theorem isRecursive_iff_before {clause : Clause} :
    isRecursive program clause = true ↔ ∃ atom ∈ clause.positiveAtoms, atom.relation = clause.head.relation ∨
      Worklist.Before (leadsTo program) clause.head.relation atom.relation := by
  rw [isRecursive_iff]
  constructor
  · intro found
    rcases found with direct | ⟨last, reached, leads⟩
    · obtain ⟨atom, isAtom, same⟩ := List.mem_map.1 direct
      exact ⟨atom, isAtom, .inl same⟩
    · obtain ⟨seed, start, _, path⟩ := reached_iff.1 reached
      obtain ⟨atom, isAtom, rfl⟩ := List.mem_map.1 start
      have steps := Relation.ReflTransGen.mono (fun _ _ step => step.1) _ _ path
      exact ⟨atom, isAtom, .inr (Relation.TransGen.tail' steps leads)⟩
  · intro ⟨atom, isAtom, reaches⟩
    have start : atom.relation ∈ clause.positiveAtoms.map Atom.relation := List.mem_map_of_mem isAtom
    rcases reaches with same | before
    · exact .inl (same ▸ start)
    · obtain ⟨last, path, leads⟩ := Relation.TransGen.tail'_iff.1 before
      refine .inr ⟨last, ?_, leads⟩
      -- Every name before the last step leads somewhere, so it is in the domain.
      have reached : ∀ {name : Name}, Relation.ReflTransGen (fun source target => target ∈ leadsTo program source)
          atom.relation name → name ∈ program.relationNames →
          Reached (leadsTo program) program.relationNames (clause.positiveAtoms.map Atom.relation) name := by
        intro name steps
        induction steps with
        | refl => exact fun inside => .seed inside start
        | tail _ step ih =>
            exact fun inside => .step (ih (declared_of_leadsTo (List.ne_nil_of_mem step))) inside step
      exact reached path (declared_of_leadsTo (List.ne_nil_of_mem leads))

/-- The search for recursion ends, and its answer is whether a path of zero or more steps leads from a positive atom of
the body to the head. -/
theorem recursion_search_exact (once : program.relationNames.Nodup) (clause : Clause) :
    (∃ answer, Searches program clause answer) ∧
      ∀ answer, Searches program clause answer →
        answer = isRecursive program clause ∧
        (answer = true ↔ ∃ atom ∈ clause.positiveAtoms,
          Relation.ReflTransGen program.LeadsTo atom.relation clause.head.relation) := by
  constructor
  · exact exists_searches program clause
  · intro answer searches
    have answers := searches.answer_iff
    constructor
    · exact Bool.eq_iff_iff.2 (answers.trans isRecursive_iff_before.symm)
    · rw [answers]
      simp only [Relation.reflTransGen_iff_eq_or_transGen, before_iff once, eq_comm]

/-- Nodes on a shelf are the same as themselves, and items, which are typed by that, are on the shelf. -/
def shelves : Program where
  types := []
  relations :=
    [⟨⟨["same"]⟩, [⟨"x", ⟨["node"]⟩⟩, ⟨"y", ⟨["node"]⟩⟩], .eqrel, []⟩,
      ⟨⟨["shelf"]⟩, [⟨"x", ⟨["node"]⟩⟩], .standard, []⟩, ⟨⟨["item"]⟩, [⟨"x", ⟨["same"]⟩⟩], .standard, []⟩]
  clauses :=
    [⟨⟨⟨["same"]⟩, [.var "x", .var "x"]⟩, [.positive ⟨["shelf"]⟩ [.var "x"]]⟩,
      ⟨⟨⟨["shelf"]⟩, [.var "x"]⟩, [.positive ⟨["item"]⟩ [.var "x"]]⟩]

/-- The first rule is recursive: the atom of its body leads to items, and these to their type. -/
theorem recursion_search_shelves :
    ∃ clause ∈ shelves.clauses, Searches shelves clause true ∧ ∃ atom ∈ clause.positiveAtoms,
      Relation.ReflTransGen shelves.LeadsTo atom.relation clause.head.relation := by
  have once : shelves.relationNames.Nodup := by decide
  have ⟨⟨answer, searches⟩, exact⟩ := recursion_search_exact once
    ⟨⟨⟨["same"]⟩, [.var "x", .var "x"]⟩, [.positive ⟨["shelf"]⟩ [.var "x"]]⟩
  obtain ⟨found, path⟩ := exact answer searches
  have yes : answer = true := found.trans (by decide)
  exact ⟨_, List.mem_cons_self, yes ▸ searches, path.1 yes⟩

end Analysis

end DatalogRam
