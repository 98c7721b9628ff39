import DatalogRam.Datalog.Variables
import Mathlib.Data.List.Basic

/-!
# Where variables occur

A clause is made of literals and its head, these of arguments, and arguments of further arguments and literals. Numbers
of parts, from the outside to the inside, say where in a clause a variable occurs, and the walk over a clause meets
occurrences in the lexicographic order of these paths.
-/

namespace DatalogRam

/-- A clause, or something that it is made of. -/
inductive Phrase where
  | clause (clause : Clause)
  | atom (atom : Atom)
  | literal (literal : Literal)
  | argument (argument : Argument)

namespace Phrase

/-- What a phrase is made of. The head of a clause stands behind its body, the target of an aggregate before it. -/
def parts : Phrase → List Phrase
  | clause ⟨head, body⟩ => body.map literal ++ [atom head]
  | atom ⟨_, args⟩ => args.map argument
  | literal (.positive _ args) => args.map argument
  | literal (.negative _ args) => args.map argument
  | literal (.comparison _ left right) => [argument left, argument right]
  | literal (.truth _) => []
  | argument (.operator _ args) => args.map argument
  | argument (.external _ args) => args.map argument
  | argument (.record args) => args.map argument
  | argument (.aggregate _ target body) => target.toList.map argument ++ body.map literal
  | argument (.var _) => []
  | argument .unnamed => []
  | argument (.constant _) => []
  | argument .counter => []

/-- A variable occurs at a path. -/
inductive OccursAt (name : String) : List Nat → Phrase → Prop where
  | here : OccursAt name [] (argument (.var name))
  | inside {index : Nat} {path : List Nat} {phrase part : Phrase} : phrase.parts[index]? = some part →
      OccursAt name path part → OccursAt name (index :: path) phrase

def Occurs (phrase : Phrase) (name : String) : Prop :=
  ∃ path, OccursAt name path phrase

/-- Some occurrence of a variable is before all those of another. -/
def FirstBefore (phrase : Phrase) (earlier later : String) : Prop :=
  ∃ path, OccursAt earlier path phrase ∧ ∀ other, OccursAt later other phrase → path < other

/-- The variables of a phrase in the order of the walk. -/
def walk : Phrase → List String
  | clause ⟨head, body⟩ => Literal.variablesOfAll body ++ head.variables
  | atom applied => applied.variables
  | literal part => part.variables
  | argument arg => arg.variables

/-! ## The walk -/

theorem variablesOfAll_arguments (args : List Argument) :
    Argument.variablesOfAll args = (args.map argument).flatMap walk := by
  induction args with
  | nil => rfl
  | cons arg rest ih => rw [Argument.variablesOfAll, ih]; rfl

theorem variablesOfAll_literals (literals : List Literal) :
    Literal.variablesOfAll literals = (literals.map literal).flatMap walk := by
  induction literals with
  | nil => rfl
  | cons literal rest ih => rw [Literal.variablesOfAll, ih]; rfl

/-- The walk goes through the parts one after the other. -/
theorem walk_eq {phrase : Phrase} (made : ∀ name, phrase ≠ argument (.var name)) :
    phrase.walk = phrase.parts.flatMap walk := by
  match phrase with
  | clause ⟨head, body⟩ => simp [walk, parts, variablesOfAll_literals]
  | atom ⟨_, args⟩ => exact variablesOfAll_arguments args
  | literal (.positive _ args) => exact variablesOfAll_arguments args
  | literal (.negative _ args) => exact variablesOfAll_arguments args
  | literal (.comparison _ left right) => simp [walk, parts, Literal.variables]
  | literal (.truth _) => rfl
  | argument (.operator _ args) => exact variablesOfAll_arguments args
  | argument (.external _ args) => exact variablesOfAll_arguments args
  | argument (.record args) => exact variablesOfAll_arguments args
  | argument (.aggregate _ none body) => exact variablesOfAll_literals body
  | argument (.aggregate _ (some target) body) =>
      simp [walk, parts, Argument.variables, Argument.variablesOfOption, variablesOfAll_literals]
  | argument (.var name) => exact absurd rfl (made name)
  | argument .unnamed => rfl
  | argument (.constant _) => rfl
  | argument .counter => rfl

theorem sizeOf_lt {part phrase : Phrase} (isPart : part ∈ phrase.parts) : sizeOf part < sizeOf phrase := by
  have ofArgs {args : List Argument} (member : part ∈ args.map argument) : sizeOf part < 1 + sizeOf args := by
    obtain ⟨arg, isArg, rfl⟩ := List.mem_map.1 member
    have smaller := List.sizeOf_lt_of_mem isArg
    simp only [argument.sizeOf_spec]
    omega
  have ofBody {body : List Literal} (member : part ∈ body.map literal) : sizeOf part < 1 + sizeOf body := by
    obtain ⟨inner, isInner, rfl⟩ := List.mem_map.1 member
    have smaller := List.sizeOf_lt_of_mem isInner
    simp only [literal.sizeOf_spec]
    omega
  match phrase with
  | clause ⟨head, body⟩ =>
      simp only [clause.sizeOf_spec, Clause.mk.sizeOf_spec]
      rcases List.mem_append.1 isPart with inBody | isHead
      · have smaller := ofBody inBody
        omega
      · cases List.mem_singleton.1 isHead
        simp only [atom.sizeOf_spec]
        omega
  | atom ⟨_, args⟩ | literal (.positive _ args) | literal (.negative _ args) | argument (.operator _ args)
  | argument (.external _ args) | argument (.record args) =>
      have smaller := ofArgs isPart
      simp only [atom.sizeOf_spec, Atom.mk.sizeOf_spec, literal.sizeOf_spec, Literal.positive.sizeOf_spec,
        Literal.negative.sizeOf_spec, argument.sizeOf_spec, Argument.operator.sizeOf_spec,
        Argument.external.sizeOf_spec, Argument.record.sizeOf_spec]
      omega
  | literal (.comparison _ left right) =>
      simp only [literal.sizeOf_spec, Literal.comparison.sizeOf_spec]
      rcases List.mem_pair.1 isPart with rfl | rfl <;> simp only [argument.sizeOf_spec] <;> omega
  | argument (.aggregate _ none body) =>
      have smaller := ofBody isPart
      simp only [argument.sizeOf_spec, Argument.aggregate.sizeOf_spec]
      omega
  | argument (.aggregate _ (some target) body) =>
      simp only [argument.sizeOf_spec, Argument.aggregate.sizeOf_spec, Option.some.sizeOf_spec]
      rcases List.mem_cons.1 isPart with rfl | inBody
      · simp only [argument.sizeOf_spec]
        omega
      · have smaller := ofBody inBody
        omega

/-! ## The walk is ordered -/

/-- All occurrences in a phrase, in the order of the walk, which is that of their paths. -/
structure Lists (phrase : Phrase) (places : List (List Nat × String)) : Prop where
  names : places.map Prod.snd = phrase.walk
  inOrder : places.Pairwise fun earlier later => earlier.1 < later.1
  mem_iff : ∀ path name, (path, name) ∈ places ↔ OccursAt name path phrase

/-- The occurrences in parts that are counted from some number on. -/
structure ListsParts (first : Nat) (parts : List Phrase) (places : List (List Nat × String)) : Prop where
  names : places.map Prod.snd = parts.flatMap walk
  inOrder : places.Pairwise fun earlier later => earlier.1 < later.1
  mem_iff : ∀ path name, (path, name) ∈ places ↔ ∃ index part rest, path = (first + index) :: rest ∧
    parts[index]? = some part ∧ OccursAt name rest part

theorem exists_listsParts (first : Nat) (parts : List Phrase) (each : ∀ part ∈ parts, ∃ places, Lists part places) :
    ∃ places, ListsParts first parts places := by
  induction parts generalizing first with
  | nil => exact ⟨[], rfl, .nil, by simp⟩
  | cons part parts ih =>
      rw [List.forall_mem_cons] at each
      obtain ⟨⟨here, isHere⟩, others⟩ := each
      obtain ⟨behind, isBehind⟩ := ih (first + 1) others
      have mem_here (path : List Nat) (name : String) :
          (path, name) ∈ here.map (fun place => (first :: place.1, place.2)) ↔
            ∃ rest, path = first :: rest ∧ OccursAt name rest part := by
        simp only [List.mem_map, Prod.mk.injEq, Prod.exists, ← isHere.mem_iff]
        constructor
        · rintro ⟨rest, _, member, rfl, rfl⟩
          exact ⟨rest, rfl, member⟩
        · rintro ⟨rest, rfl, member⟩
          exact ⟨rest, name, member, rfl, rfl⟩
      refine ⟨here.map (fun place => (first :: place.1, place.2)) ++ behind, ?_, ?_, ?_⟩
      · rw [List.map_append, isBehind.names, List.map_map, List.flatMap_cons, ← isHere.names]
        rfl
      · refine List.pairwise_append.2 ⟨?_, isBehind.inOrder, ?_⟩
        · refine List.pairwise_map.2 (isHere.inOrder.imp fun before => ?_)
          exact List.cons_lt_cons_iff.2 (.inr ⟨rfl, before⟩)
        · intro left isLeft right isRight
          obtain ⟨leftRest, leftPath, _⟩ := (mem_here left.1 left.2).1 isLeft
          obtain ⟨index, _, rightRest, rightPath, _⟩ := (isBehind.mem_iff right.1 right.2).1 isRight
          rw [leftPath, rightPath]
          exact List.cons_lt_cons_iff.2 (.inl (by omega))
      · intro path name
        rw [List.mem_append, mem_here, isBehind.mem_iff]
        constructor
        · rintro (⟨rest, rfl, occurs⟩ | ⟨index, other, rest, rfl, found, occurs⟩)
          · exact ⟨0, part, rest, rfl, rfl, occurs⟩
          · exact ⟨index + 1, other, rest, by rw [Nat.add_right_comm, Nat.add_assoc], found, occurs⟩
        · rintro ⟨index, other, rest, rfl, found, occurs⟩
          cases index with
          | zero =>
              cases found
              exact .inl ⟨rest, rfl, occurs⟩
          | succ index => exact .inr ⟨index, other, rest, by rw [Nat.add_right_comm, Nat.add_assoc], found, occurs⟩

theorem exists_lists (phrase : Phrase) : ∃ places, Lists phrase places := by
  by_cases isVariable : ∃ name, phrase = argument (.var name)
  · obtain ⟨name, rfl⟩ := isVariable
    refine ⟨[([], name)], rfl, List.pairwise_singleton _ _, fun path other => ?_⟩
    rw [List.mem_singleton, Prod.mk.injEq]
    constructor
    · rintro ⟨rfl, rfl⟩
      exact .here
    · intro occurs
      cases occurs with
      | here => exact ⟨rfl, rfl⟩
      | inside found => cases found
  · have made (name : String) : phrase ≠ argument (.var name) := fun same => isVariable ⟨name, same⟩
    obtain ⟨places, isList⟩ := exists_listsParts 0 phrase.parts fun part isPart => exists_lists part
    refine ⟨places, (walk_eq made).symm ▸ isList.names, isList.inOrder, fun path name => ?_⟩
    rw [isList.mem_iff]
    constructor
    · rintro ⟨index, part, rest, rfl, found, occurs⟩
      rw [Nat.zero_add]
      exact .inside found occurs
    · intro occurs
      cases occurs with
      | here => exact absurd rfl (made name)
      | inside found occurs => exact ⟨_, _, _, by rw [Nat.zero_add], found, occurs⟩
termination_by phrase
decreasing_by exact sizeOf_lt isPart

theorem mem_walk_iff {phrase : Phrase} {name : String} : name ∈ phrase.walk ↔ phrase.Occurs name := by
  obtain ⟨places, isList⟩ := exists_lists phrase
  rw [← isList.names, List.mem_map]
  constructor
  · rintro ⟨⟨path, _⟩, member, rfl⟩
    exact ⟨path, (isList.mem_iff path _).1 member⟩
  · rintro ⟨path, occurs⟩
    exact ⟨(path, name), (isList.mem_iff path name).2 occurs, rfl⟩

/-- In a list that is sorted by paths, the name that is listed first has the first path. -/
theorem idxOf_names_lt_iff {places : List (List Nat × String)}
    (inOrder : places.Pairwise fun earlier later => earlier.1 < later.1) (earlier later : String) :
    (places.map Prod.snd).idxOf earlier < (places.map Prod.snd).idxOf later ↔
      ∃ path, (path, earlier) ∈ places ∧ ∀ other, (other, later) ∈ places → path < other := by
  induction places with
  | nil => simp
  | cons place rest ih =>
      obtain ⟨path, name⟩ := place
      obtain ⟨before, inOrder⟩ := List.pairwise_cons.1 inOrder
      rw [List.map_cons]
      by_cases isLater : name = later
      · -- No occurrence is before the first one.
        subst isLater
        have notBefore : ¬∃ found, (found, earlier) ∈ (path, name) :: rest ∧
            ∀ other, (other, name) ∈ (path, name) :: rest → found < other := by
          rintro ⟨found, member, isFirst⟩
          have before' := isFirst path List.mem_cons_self
          rcases List.mem_cons.1 member with same | isRest
          · cases same
            exact List.lt_irrefl _ before'
          · exact List.lt_asymm before' (before _ isRest)
        exact iff_of_false (by simp) notBefore
      · by_cases isEarlier : name = earlier
        · subst isEarlier
          have isBefore : ∃ found, (found, name) ∈ (path, name) :: rest ∧
              ∀ other, (other, later) ∈ (path, name) :: rest → found < other := by
            refine ⟨path, List.mem_cons_self, fun other member => ?_⟩
            rcases List.mem_cons.1 member with same | isRest
            · cases same
              exact absurd rfl isLater
            · exact before _ isRest
          exact iff_of_true (by simp [List.idxOf_cons_ne _ isLater]) isBefore
        · rw [List.idxOf_cons_ne _ isLater, List.idxOf_cons_ne _ isEarlier, Nat.succ_lt_succ_iff, ih inOrder]
          simp [Ne.symm isLater, Ne.symm isEarlier]

/-- The walk first meets the variable that has the first occurrence. -/
theorem idxOf_walk_lt_iff {phrase : Phrase} {earlier later : String} :
    phrase.walk.idxOf earlier < phrase.walk.idxOf later ↔ phrase.FirstBefore earlier later := by
  obtain ⟨places, isList⟩ := exists_lists phrase
  rw [← isList.names, idxOf_names_lt_iff isList.inOrder]
  simp only [FirstBefore, isList.mem_iff]

end Phrase

end DatalogRam
