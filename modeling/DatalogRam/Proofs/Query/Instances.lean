import DatalogRam.Proofs.Evaluation.Clauses
import DatalogRam.Proofs.Query.Folds

/-!
# What the query of a clause with aggregates concludes

For a choice of rows the values of the aggregates are bound behind the rows. What the frame of the clause then reads are
the words of its variables and the values of its aggregates, `frameWords` and `frameResults`. The query inserts the head
for the choices with which the clause concludes, and these are all of its instances: `exists_conclusion`.
-/

namespace DatalogRam

open Lowering Machine Ram

/-- A rule over declared relations that does not read its head's relation, and that computes terms over the values of
plain aggregates. No aggregate mentions a variable that only an equation with an aggregate binds. -/
structure Clause.Folding (program : Program) (clause : Clause) : Prop where
  rule : clause.isFact = false
  head : ∀ arg ∈ clause.head.args, arg.isComputed = true
  body : ∀ literal ∈ clause.body, literal.Plain Argument.isComputed
  aggregates : ∀ aggregate ∈ clauseAggregates clause, aggregate.Plain
  declared : ∀ atom ∈ clause.named, atom.relation ∈ program.relationNames ∧ atom.arity = arityOf program atom.relation
  others : ∀ literal ∈ clause.evaluated, ∀ atom, literal.atom? = some atom → atom.relation ≠ clause.head.relation
  unequated : ∀ aggregate ∈ clauseAggregates clause, ∀ name ∈ aggregate.toArgument.variables,
    clause.binds name = true ∨ ∀ literal ∈ clause.body, ∀ other, ¬Equates name other literal

theorem Clause.Folding.direct {program : Program} {clause : Clause} (folding : clause.Folding program) :
    ∀ atom ∈ clause.positiveAtoms, ∀ arg ∈ atom.args, arg.isDirect = true :=
  fun atom member => folding.body (.positive atom.relation atom.args) (Clause.mem_positiveAtoms.1 member)

namespace Lowering

/-! ## Where the frame of a clause reads -/

/-- The word at a site, if there is one. -/
def Site.word? (site : Site) (bound : List Row) : Option Int64 :=
  (bound[site.tuple]?).bind fun row => row[site.column]?

/-- The word of each variable in bound rows. -/
def Sites.words (sites : Sites) (bound : List Row) : Valuation := fun name =>
  ((sites.definition? name).bind fun site => site.word? bound).getD 0

/-- The value of each aggregate in bound rows. -/
def Sites.results (sites : Sites) (bound : List Row) : Aggregate → Int64 := fun aggregate =>
  ((sites.aggregate? aggregate).bind fun site => site.word? bound).getD 0

/-- The rows that are bound for a choice: those of the atoms, and the values of the aggregates. -/
noncomputable def boundRows (ordinal : String → Int64) (clause : Clause) (store : Store) (choice : List Row) :
    List Row :=
  choice ++ (clauseAggregates clause).map
    (resultRow ordinal store clause.binds (valuationOf clause.positiveAtoms choice))

/-- The words of a clause's variables for a choice. -/
noncomputable def frameWords (ordinal : String → Int64) (clause : Clause) (store : Store) (choice : List Row) :
    Valuation :=
  (clauseFrame clause).sites.words (boundRows ordinal clause store choice)

/-- The values of a clause's aggregates for a choice. -/
noncomputable def frameResults (ordinal : String → Int64) (clause : Clause) (store : Store) (choice : List Row) :
    Aggregate → Int64 :=
  (clauseFrame clause).sites.results (boundRows ordinal clause store choice)

variable {ordinal : String → Int64} {plan : Plan} {clause : Clause} {id : Nat} {sites : Sites} {args : Row}
variable {start store : Store} {choice rows : List Row} {state : State} {aggregate : Aggregate} {name : String}
variable {site : Site}

theorem Site.exists_of_word {word : Int64} (found : site.word? rows = some word) {bindings : Bindings}
    (bound : Bound bindings rows) : ∃ row, bindings.lookup site.tuple = some row ∧ row[site.column]? = some word := by
  obtain ⟨row, isRow, isWord⟩ := Option.bind_eq_some_iff.1 found
  exact ⟨row, bound site.tuple row isRow, isWord⟩

theorem reads_words {bindings : Bindings} (bound : Bound bindings rows)
    (inside : ∀ site, sites.definition? name = some site → ∃ word, site.word? rows = some word) :
    Reads sites bindings (sites.words rows) name := by
  intro site defined
  obtain ⟨word, isWord⟩ := inside site defined
  rw [Sites.words, defined, Option.bind_some, isWord]
  exact Site.exists_of_word isWord bound

theorem readsResult_results {bindings : Bindings} (bound : Bound bindings rows)
    (inside : ∀ site, sites.aggregate? aggregate = some site → ∃ word, site.word? rows = some word) :
    ReadsResult sites bindings (sites.results rows) aggregate := by
  intro site found
  obtain ⟨word, isWord⟩ := inside site found
  rw [Sites.results, found, Option.bind_some, isWord]
  exact Site.exists_of_word isWord bound

theorem binds_iff_definition :
    clause.binds name = true ↔ ∃ site, (atomSites clause.positiveAtoms).definition? name = some site := by
  rw [Clause.binds_iff]
  constructor
  · rintro ⟨atom, member, argument⟩
    obtain ⟨position, atPosition⟩ := List.getElem?_of_mem member
    obtain ⟨site, defined, _⟩ := definition_of_argument atPosition argument
    exact ⟨site, defined⟩
  · rintro ⟨site, defined⟩
    obtain ⟨atom, atTuple, argument⟩ := argument_of_definition defined
    exact ⟨atom, List.mem_of_getElem? atTuple, List.mem_of_getElem? argument⟩

/-- Every aggregate of a clause has a site. -/
theorem exists_aggregate? (member : aggregate ∈ clauseAggregates clause) :
    ∃ site, (clauseFrame clause).sites.aggregate? aggregate = some site := by
  have kept (entries : List (Aggregate × Nat)) (sites : Sites)
      (recorded : (∃ position, (aggregate, position) ∈ entries) ∨ (sites.aggregate? aggregate).isSome) :
      ((entries.foldl (fun sites entry => sites.setAggregate entry.1 ⟨clause.positiveAtoms.length + entry.2, 0⟩)
        sites).aggregate? aggregate).isSome := by
    induction entries generalizing sites with
    | nil => exact recorded.resolve_left (by simp)
    | cons entry rest ih =>
        refine ih _ ?_
        by_cases same : aggregate = entry.1
        · exact .inr (by simp [Sites.aggregate?, Sites.setAggregate, same])
        · rcases recorded with ⟨position, member⟩ | before
          · rcases List.mem_cons.1 member with rfl | member
            · exact absurd rfl same
            · exact .inl ⟨position, member⟩
          · refine .inr ?_
            change (List.lookup aggregate ((entry.1, _) :: sites.aggregates)).isSome
            rw [List.lookup_cons, beq_false_of_ne same]
            exact before
  obtain ⟨position, atPosition⟩ := List.getElem?_of_mem member
  rw [Sites.aggregate?, aggregates_clauseFrame]
  exact Option.isSome_iff_exists.1
    (kept _ _ (.inl ⟨position, List.mem_zipIdx_iff_getElem?.2 atPosition⟩))

theorem mem_of_aggregate? (found : (aggregateSitesOf clause).aggregate? aggregate = some site) :
    aggregate ∈ clauseAggregates clause := by
  obtain ⟨position, atPosition, _⟩ := aggregate?_aggregateSitesOf found
  exact List.mem_of_getElem? atPosition

section Choice

variable (length : choice.length = clause.positiveAtoms.length)

include length

/-- The value of an aggregate is bound at its site. -/
theorem word_of_aggregate? (found : (aggregateSitesOf clause).aggregate? aggregate = some site) :
    site.word? (boundRows ordinal clause store choice) =
      some ((aggregate.result? ordinal (storedRows store) clause.binds
        (valuationOf clause.positiveAtoms choice)).getD 0) := by
  obtain ⟨position, atPosition, rfl⟩ := aggregate?_aggregateSitesOf found
  rw [Site.word?, boundRows, ← length, List.getElem?_append_right (Nat.le_add_right _ _), Nat.add_sub_cancel_left,
    List.getElem?_map, atPosition]
  rfl

theorem frameResults_eq (member : aggregate ∈ clauseAggregates clause) :
    frameResults ordinal clause store choice aggregate =
      (aggregate.result? ordinal (storedRows store) clause.binds
        (valuationOf clause.positiveAtoms choice)).getD 0 := by
  obtain ⟨site, found⟩ := exists_aggregate? member
  have isSite := found
  rw [Sites.aggregate?, aggregates_clauseFrame] at isSite
  rw [frameResults, Sites.results, found, Option.bind_some, word_of_aggregate? length isSite, Option.getD_some]

theorem word_of_atom (defined : (atomSites clause.positiveAtoms).definition? name = some site) :
    site.word? (boundRows ordinal clause store choice) = site.word? choice := by
  obtain ⟨atom, atTuple, _⟩ := argument_of_definition defined
  obtain ⟨inside, _⟩ := List.getElem?_eq_some_iff.1 atTuple
  rw [Site.word?, boundRows, List.getElem?_append_left (length ▸ inside)]
  rfl

/-- A variable of an atom has its word in the rows of the choice. -/
theorem frameWords_of_binds (binds : clause.binds name = true) :
    frameWords ordinal clause store choice name = valuationOf clause.positiveAtoms choice name := by
  obtain ⟨site, defined⟩ := binds_iff_definition.1 binds
  rw [frameWords, Sites.words, definition?_clauseFrame_of_atoms defined, Option.bind_some, word_of_atom length defined,
    valuationOf, defined]
  rfl

/-- Any other variable has the value of an aggregate that it is equated with. -/
theorem frameWords_of_not_binds (defined : (clauseFrame clause).sites.definition? name = some site)
    (unbound : ¬clause.binds name = true) :
    ∃ literal ∈ clause.body, ∃ aggregate ∈ clauseAggregates clause, Equates name aggregate literal ∧
      frameWords ordinal clause store choice name = frameResults ordinal clause store choice aggregate := by
  rcases definition?_clauseFrame defined with inAtoms | ⟨_, literal, inBody, aggregate, equates, isSite⟩
  · exact absurd (binds_iff_definition.2 ⟨site, inAtoms⟩) unbound
  · have member := mem_of_aggregate? isSite
    refine ⟨literal, inBody, aggregate, member, equates, ?_⟩
    rw [frameResults_eq length member, frameWords, Sites.words, defined, Option.bind_some,
      word_of_aggregate? length isSite, Option.getD_some]

/-- Aggregates have the same values whether the variables of atoms are read in the rows or in the frame. -/
theorem result?_frameWords (stored : Name → List Row) (aggregate : Aggregate) :
    aggregate.result? ordinal stored clause.binds (frameWords ordinal clause store choice) =
      aggregate.result? ordinal stored clause.binds (valuationOf clause.positiveAtoms choice) :=
  Aggregate.result?_congr fun _ binds => frameWords_of_binds length binds

section Selected

variable (shaped : Shaped .complete 0 clause.positiveAtoms start)
  (selected : Selected ordinal .complete clause.positiveAtoms start choice)

include shaped selected

theorem exists_word_of_definition (defined : (clauseFrame clause).sites.definition? name = some site) :
    ∃ word, site.word? (boundRows ordinal clause store choice) = some word := by
  rcases definition?_clauseFrame defined with inAtoms | ⟨_, _, _, _, _, isSite⟩
  · obtain ⟨atom, atTuple, argument⟩ := argument_of_definition inAtoms
    obtain ⟨row, isRow, long⟩ := Selected.exists_row shaped length selected site.tuple atom atTuple
    have inside : site.column < row.length := by
      rw [long]
      exact (List.getElem?_eq_some_iff.1 argument).1
    rw [word_of_atom length inAtoms, Site.word?, isRow, Option.bind_some, List.getElem?_eq_getElem inside]
    exact ⟨_, rfl⟩
  · exact ⟨_, word_of_aggregate? length isSite⟩

/-- Where all values are bound, the frame reads the words of the variables. -/
theorem reads_frameWords {bindings : Bindings} (bound : Bound bindings (boundRows ordinal clause store choice)) :
    Reads (clauseFrame clause).sites bindings (frameWords ordinal clause store choice) name :=
  reads_words bound fun _ defined => exists_word_of_definition length shaped selected defined

end Selected

theorem readsResult_frameResults {bindings : Bindings}
    (bound : Bound bindings (boundRows ordinal clause store choice)) :
    ReadsResult (clauseFrame clause).sites bindings (frameResults ordinal clause store choice) aggregate := by
  refine readsResult_results bound fun site found => ?_
  rw [Sites.aggregate?, aggregates_clauseFrame] at found
  exact ⟨_, word_of_aggregate? length found⟩

end Choice

/-! ## What a choice concludes -/

/-- The head with the words and values for a choice. -/
noncomputable def conclusion (ordinal : String → Int64) (clause : Clause) (store : Store) (choice : List Row) : Row :=
  Argument.valuesWith ordinal (frameWords ordinal clause store choice) (frameResults ordinal clause store choice)
    clause.head.args

/-- The clause has an instance with the words and values for a choice. -/
def ConcludesFrom (ordinal : String → Int64) (clause : Clause) (store : Store) (choice : List Row) : Prop :=
  clause.Concludes ordinal (storedRows store) (frameWords ordinal clause store choice)
    (frameResults ordinal clause store choice)

open Classical in
/-- Insert a row unless the guard for a head without columns keeps it out. -/
noncomputable def insertOnce (head : Atom) (row : Row) (store : Store) : Store :=
  if Unguarded 0 .complete head row store then store.insert head.relation.text row else store

open Classical in
/-- What a query does for one choice of rows. -/
noncomputable def conclude (ordinal : String → Int64) (clause : Clause) (choice : List Row) (store : Store) : Store :=
  if ConcludesFrom ordinal clause store choice then
    insertOnce clause.head (conclusion ordinal clause store choice) store
  else store

section Instances

variable {valuation : Valuation} {results : Aggregate → Int64}

/-- What an instance gives to variables and aggregates, the frame reads for the rows of the instance. -/
structure Agree (ordinal : String → Int64) (clause : Clause) (store : Store) (choice : List Row)
    (valuation : Valuation) (results : Aggregate → Int64) : Prop where
  words : ∀ name site, (clauseFrame clause).sites.definition? name = some site →
    frameWords ordinal clause store choice name = valuation name
  results : ∀ aggregate ∈ clauseAggregates clause,
    frameResults ordinal clause store choice aggregate = results aggregate

theorem agree_of_concludes (length : choice.length = clause.positiveAtoms.length)
    (same : ∀ name, clause.binds name = true → valuationOf clause.positiveAtoms choice name = valuation name)
    (concludes : clause.Concludes ordinal (storedRows store) valuation results) :
    Agree ordinal clause store choice valuation results := by
  have isResult : ∀ aggregate ∈ clauseAggregates clause,
      frameResults ordinal clause store choice aggregate = results aggregate := by
    intro aggregate member
    rw [frameResults_eq length member, Aggregate.result?_congr same, concludes.results aggregate member]
    rfl
  refine ⟨fun name site defined => ?_, isResult⟩
  by_cases binds : clause.binds name = true
  · rw [frameWords_of_binds length binds, same name binds]
  · obtain ⟨literal, inBody, aggregate, member, equates, isWord⟩ := frameWords_of_not_binds length defined binds
    rw [isWord, isResult aggregate member]
    have holds := concludes.body literal inBody
    cases equates with
    | left =>
        have equal : valuation name = results aggregate := of_decide_eq_true holds
        exact equal.symm
    | right =>
        have equal : results aggregate = valuation name := of_decide_eq_true holds
        exact equal

theorem definition_of_ownVariables {program : Program} (readable : Clause.Readable program clause) {literal : Literal}
    (inBody : literal ∈ clause.body) (member : name ∈ literal.ownVariables) :
    ∃ site, (clauseFrame clause).sites.definition? name = some site := by
  cases literal with
  | positive relation terms =>
      obtain ⟨arg, isArg, inArg⟩ := Argument.mem_ownVariablesOfAll.1 member
      have isReadable := readable.scanned ⟨relation, terms⟩ (Clause.mem_positiveAtoms.2 inBody) arg isArg
      exact Option.isSome_iff_exists.1 (isReadable.names name inArg)
  | negative relation terms =>
      obtain ⟨arg, isArg, inArg⟩ := Argument.mem_ownVariablesOfAll.1 member
      exact Option.isSome_iff_exists.1 (((readable.constraints _ inBody).2 arg isArg).names name inArg)
  | comparison op left right =>
      rcases List.mem_append.1 member with inLeft | inRight
      · exact Option.isSome_iff_exists.1 ((readable.constraints _ inBody).1.names name inLeft)
      · exact Option.isSome_iff_exists.1 ((readable.constraints _ inBody).2.names name inRight)
  | truth value => cases member

/-- The instances of a clause are what it concludes from the choices of rows. -/
theorem mem_instances_iff {program : Program} (folding : clause.Folding program)
    (lowerable : Clause.Lowerable program clause) {row : Row} :
    row ∈ clause.instances ordinal (storedRows store) ↔
      ∃ choice, choice.length = clause.positiveAtoms.length ∧
        Selected ordinal .complete clause.positiveAtoms store choice ∧
        ConcludesFrom ordinal clause store choice ∧ row = conclusion ordinal clause store choice := by
  constructor
  · rintro ⟨valuation, results, concludes, rfl⟩
    -- The instance may give any words to variables that the clause does not have. For the rows that match it, the frame
    -- agrees with it on all the others, and what is lowered has no variable without a site.
    obtain ⟨choice, length, chosen⟩ := exists_choice clause.positiveAtoms
      fun position atom atPosition => by
        have inBody := Clause.mem_positiveAtoms.1 (List.mem_of_getElem? atPosition)
        obtain ⟨row, member, isMatch⟩ := concludes.body _ inBody
        rw [← List.take_of_length_le (Nat.le_of_eq (length_of_match isMatch))] at isMatch
        exact (⟨row, member, isMatch⟩ : ∃ row : Row,
          row ∈ store.rows (Version.complete.source position atom.relation) ∧
            Argument.Match ordinal valuation atom.args (row.take atom.arity))
    have agree : Agree ordinal clause store choice valuation results :=
      agree_of_concludes length (fun name binds =>
        valuationOf_of_matches length chosen (binds_iff_definition.1 binds)) concludes
    rw [Clause.Lowerable, folding.rule] at lowerable
    obtain ⟨_, readable, headReadable⟩ := lowerable
    refine ⟨choice, length, selected_of_matches length chosen folding.direct, ⟨?_, ?_⟩, ?_⟩
    · intro literal inBody
      refine (Literal.holdsWith_congr_words (fun name member => ?_) fun aggregate member => ?_).2
        (concludes.body literal inBody)
      · obtain ⟨site, defined⟩ := definition_of_ownVariables readable inBody member
        exact agree.words name site defined
      · refine agree.results aggregate (List.mem_eraseDups.2 (List.mem_append_right _ ?_))
        exact List.mem_flatMap.2 ⟨literal, inBody, member⟩
    · intro aggregate member
      rw [agree.results aggregate member, ← concludes.results aggregate member, result?_frameWords length]
      refine Aggregate.result?_congr fun name binds => ?_
      exact valuationOf_of_matches length chosen (binds_iff_definition.1 binds)
    · refine (Argument.valuesWith_congr (fun name member => ?_) fun aggregate member => ?_).symm
      · obtain ⟨arg, isArg, inArg⟩ := Argument.mem_ownVariablesOfAll.1 member
        obtain ⟨site, defined⟩ := Option.isSome_iff_exists.1 ((headReadable arg isArg).names name inArg)
        exact agree.words name site defined
      · exact agree.results aggregate (List.mem_eraseDups.2 (List.mem_append_left _ member))
  · rintro ⟨choice, _, _, concludes, rfl⟩
    exact ⟨_, _, concludes, rfl⟩

end Instances

end Lowering

end DatalogRam
