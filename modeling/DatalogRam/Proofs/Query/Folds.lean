import DatalogRam.Proofs.Query.Derivation

/-!
# Running aggregates

The code of an aggregate binds the rows of one relation, one after another, tests each of them and folds the words of
the target. `decides_admits` says that the test is for a row that the aggregate admits, where the variables that are
defined outside keep their words, and `folds_aggregate` that what is nested runs with the aggregate's value, if there
is one. `leaves_aggregated` goes through the aggregates of a clause, each bound behind those before it.
-/

namespace DatalogRam.Lowering

open Machine Ram

/-- The rows of each relation's own table. -/
def storedRows (store : Store) : Name → List Row := fun name => (store.rows name.text).toList

variable {ordinal : String → Int64} {plan : Plan} {sites inner : Sites} {args : Row} {state : State}
variable {valuation words : Valuation} {aggregate : Aggregate} {rows choice : List Row} {tuple : Nat} {row : Row}

/-! ## Literals over stored rows -/

theorem length_of_match {terms : List Argument} (isMatch : Argument.Match ordinal valuation terms row) :
    row.length = terms.length := by
  induction terms generalizing row with
  | nil =>
      cases row with
      | nil => rfl
      | cons word row => cases isMatch
  | cons term terms ih =>
      cases row with
      | nil => cases isMatch
      | cons word row => rw [List.length_cons, List.length_cons, ih isMatch.2]

/-- Without bookkeeping columns a literal passes if it holds of the stored rows. -/
theorem passes_iff_holds_stored {literal : Literal} {store : Store} (isOther : literal.positiveAtom? = none) :
    Passes ordinal 0 valuation store literal ↔
      literal.Holds ordinal valuation (factsOf (storedRows store)) (factsOf (storedRows store)) := by
  cases literal with
  | positive relation terms => cases isOther
  | negative relation terms =>
      refine not_congr (exists_congr fun row => and_congr_left fun isMatch => ?_)
      constructor
      · rintro ⟨full, member, length, rfl⟩
        rw [Nat.add_zero] at length
        rw [← length, List.take_length]
        exact member
      · intro member
        have length := length_of_match isMatch
        exact ⟨row, member, length, List.take_of_length_le (Nat.le_of_eq length)⟩
  | comparison op left right => rfl
  | truth value => rfl

theorem passesWith_iff_holdsWith {literal : Literal} {results : Aggregate → Int64} {store : Store}
    (isOther : literal.positiveAtom? = none) :
    PassesWith ordinal 0 valuation results store literal ↔
      literal.HoldsWith ordinal (storedRows store) valuation results := by
  cases literal with
  | positive relation terms => cases isOther
  | negative relation terms => exact passes_iff_holds_stored isOther
  | comparison op left right => rfl
  | truth value => rfl

/-! ## The sites within an aggregate -/

theorem undefined_of_introduced {term : Argument} {name : String} (introduced : introduced? sites term = some name) :
    sites.definition? name = none := by
  obtain rfl := introduced?_eq_some introduced
  rw [introduced?] at introduced
  split at introduced
  · cases introduced
  · next notDefined =>
      rw [Sites.defines, Bool.not_eq_true, Option.isSome_eq_false_iff, Option.isNone_iff_eq_none] at notDefined
      rw [Sites.definition?, notDefined]
      rfl

/-- What is known of a row and of the arguments of an aggregate's atom from some column on: the sites recorded so far
give the named variables, and the row gives the others where they occur first. -/
structure Ahead (sites : Sites) (bindings : Bindings) (words : Valuation) (names : List String) (row : Row)
    (column : Nat) (terms : List Argument) : Prop where
  direct : ∀ arg ∈ terms, arg.isDirect = true
  named : ∀ name, .var name ∈ terms → name ∈ names
  reads : ∀ name ∈ names, Reads sites bindings words name
  fresh : ∀ name, .var name ∈ terms → sites.definition? name = none →
    row[column + terms.idxOf (.var name)]? = some (words name)
  long : column + terms.length ≤ row.length

namespace Ahead

variable {bindings : Bindings} {names : List String} {column : Nat} {term : Argument} {terms : List Argument}

theorem inside (ahead : Ahead sites bindings words names row column (term :: terms)) : column < row.length := by
  have long := ahead.long
  rw [List.length_cons] at long
  omega

theorem fresh_later (ahead : Ahead sites bindings words names row column (term :: terms)) {name : String}
    (member : .var name ∈ terms) (other : term ≠ .var name) (undefined : sites.definition? name = none) :
    row[column + 1 + terms.idxOf (.var name)]? = some (words name) := by
  have atIndex := ahead.fresh name (List.mem_cons_of_mem _ member) undefined
  rwa [List.idxOf_cons_ne _ other, Nat.add_succ, ← Nat.succ_add] at atIndex

/-- An argument that defines nothing leaves the sites as they are. -/
theorem skip (ahead : Ahead sites bindings words names row column (term :: terms))
    (known : ∀ name, term = .var name → ∃ site, sites.definition? name = some site) :
    Ahead sites bindings words names row (column + 1) terms where
  direct arg member := ahead.direct arg (List.mem_cons_of_mem _ member)
  named name member := ahead.named name (List.mem_cons_of_mem _ member)
  reads := ahead.reads
  fresh name member undefined := by
    refine ahead.fresh_later member (fun same => ?_) undefined
    obtain ⟨site, defined⟩ := known name same
    rw [undefined] at defined
    cases defined
  long := by
    have long := ahead.long
    rw [List.length_cons] at long
    omega

/-- A variable is defined where it occurs first. -/
theorem introduce {name : String} (ahead : Ahead sites bindings words names row column (.var name :: terms))
    (undefined : sites.definition? name = none) (bound : bindings.lookup tuple = some row) :
    row[column]? = some (words name) ∧
      Ahead (sites.addVariable name ⟨tuple, column⟩) bindings words names row (column + 1) terms := by
  have isFirst : row[column]? = some (words name) := by
    have atIndex := ahead.fresh name List.mem_cons_self undefined
    rwa [List.idxOf_cons_self] at atIndex
  refine ⟨isFirst, fun arg member => ahead.direct arg (List.mem_cons_of_mem _ member),
    fun other member => ahead.named other (List.mem_cons_of_mem _ member), fun other isNamed site defined => ?_,
    fun other member undefinedLater => ?_, ?_⟩
  · rw [Sites.definition?_addVariable, Option.or_eq_some_iff] at defined
    rcases defined with before | ⟨_, here⟩
    · exact ahead.reads other isNamed site before
    · split at here
      · next same =>
          cases here
          exact ⟨row, bound, same ▸ isFirst⟩
      · cases here
  · rw [Sites.definition?_addVariable, Option.or_eq_none_iff] at undefinedLater
    refine ahead.fresh_later member (fun same => ?_) undefinedLater.1
    cases same
    rw [if_pos rfl] at undefinedLater
    cases undefinedLater.2
  · have long := ahead.long
    rw [List.length_cons] at long
    omega

end Ahead

/-- The arguments of an aggregate's atom define the variables that are not defined before, and what else they ask for
decides whether the bound row matches. -/
theorem decides_aggregateSites {names : List String} (bound : state.bindings.lookup tuple = some row)
    {terms : List Argument} {column : Nat} {comparisons : List Cond}
    (ahead : Ahead sites state.bindings words names row column terms)
    (code : aggregateSitesCode ordinal tuple sites (terms.zipIdx column) = some (inner, comparisons)) :
    (∀ name ∈ names, Reads inner state.bindings words name) ∧
      (∀ condition ∈ comparisons, Decides args state condition (Holds args state condition)) ∧
      ((∀ condition ∈ comparisons, Holds args state condition) ↔
        Argument.Match ordinal words terms ((row.drop column).take terms.length)) := by
  induction terms generalizing column sites comparisons with
  | nil =>
      cases code
      exact ⟨ahead.reads, by simp, by simp [Argument.Match]⟩
  | cons term terms ih =>
      obtain ⟨word, isWord, dropped⟩ := exists_word ahead.inside
      have isDirect := ahead.direct term List.mem_cons_self
      rw [dropped, List.length_cons, List.take_succ_cons, Argument.Match]
      rw [List.zipIdx_cons] at code
      cases introduced : introduced? sites term with
      | some name =>
          obtain rfl := introduced?_eq_some introduced
          rw [aggregateSitesCode_of_introduced introduced] at code
          obtain ⟨isFirst, later⟩ := ahead.introduce (undefined_of_introduced introduced) bound
          obtain ⟨reads, decides, means⟩ := ih later code
          refine ⟨reads, decides, means.trans (iff_and_self.2 fun _ => .inr ?_)⟩
          rw [isWord, Option.some.injEq] at isFirst
          exact isFirst.symm
      | none =>
          by_cases isUnnamed : term = .unnamed
          · subst isUnnamed
            rw [aggregateSitesCode] at code
            obtain ⟨reads, decides, means⟩ := ih (ahead.skip fun name same => by cases same) code
            exact ⟨reads, decides, means.trans (iff_and_self.2 fun _ => .inl rfl)⟩
          rw [aggregateSitesCode_of_compared introduced isUnnamed] at code
          obtain ⟨value, isValue, code⟩ := Option.bind_eq_some_iff.1 code
          obtain ⟨⟨_, more⟩, isRest, same⟩ := Option.bind_eq_some_iff.1 code
          cases same
          have later := ahead.skip fun name isVar => by
            rw [isVar, valueCode, Option.map_eq_some_iff] at isValue
            exact isValue.imp fun site found => found.1
          obtain ⟨reads, decides, means⟩ := ih later isRest
          have compared : Decides args state (.compare .eq (.element tuple column) value)
              (term.value ordinal words = word) :=
            decides_argument bound isWord
              (fun name isVar => ahead.reads name (ahead.named name (isVar ▸ List.mem_cons_self))) isDirect
              ((Argument.isDirect_plain isDirect).resolve_left isUnnamed) isValue
          refine ⟨reads, List.forall_mem_cons.2 ⟨compared.holds.1, decides⟩, ?_⟩
          rw [List.forall_mem_cons, compared.holds.2, means]
          simp only [isUnnamed, false_or]

/-! ## One aggregate -/

/-- What an aggregate finds defined outside: exactly the variables that are given, with their words. -/
structure Sees (sites : Sites) (outer : String → Bool) (valuation : Valuation) (choice : List Row)
    (aggregate : Aggregate) : Prop where
  defined : ∀ name ∈ aggregate.toArgument.variables,
    outer name = true ↔ ∃ site, sites.definition? name = some site
  reads : ∀ bindings, Bound bindings choice → ∀ name ∈ aggregate.toArgument.variables, outer name = true →
    Reads sites bindings valuation name

section Single

variable {outer : String → Bool} {atom : Atom} (single : aggregate.body.filterMap Literal.positiveAtom? = [atom])

include single

theorem mem_of_single : .positive atom.relation atom.args ∈ aggregate.body :=
  Literal.mem_positiveAtoms.1 (single ▸ List.mem_singleton_self atom)

theorem eq_of_single {relation : Name} {terms : List Argument} (member : .positive relation terms ∈ aggregate.body) :
    atom = ⟨relation, terms⟩ := by
  have isAtom : (⟨relation, terms⟩ : Atom) ∈ aggregate.body.filterMap Literal.positiveAtom? :=
    Literal.mem_positiveAtoms.2 member
  rw [single, List.mem_singleton] at isAtom
  exact isAtom.symm

/-- Within an aggregate the row of its atom gives the variables that are not defined outside. -/
theorem Sees.ahead {bindings : Bindings} (sees : Sees sites outer valuation choice aggregate) (plain : aggregate.Plain)
    (bound : Bound bindings choice) (length : row.length = atom.arity) :
    Ahead sites bindings (valuation.within outer atom.args row) aggregate.toArgument.variables row 0 atom.args := by
  have inBody := mem_of_single single
  have mentioned (name : String) (member : .var name ∈ atom.args) : name ∈ aggregate.toArgument.variables := by
    refine List.mem_append_right _ (Literal.mem_variablesOfAll.2 ⟨_, inBody, ?_⟩)
    exact Argument.mem_variablesOfAll.2 ⟨_, member, List.mem_singleton_self name⟩
  constructor
  · exact plain.body _ inBody
  · exact mentioned
  · intro name member site defined
    have isOuter := (sees.defined name member).2 ⟨site, defined⟩
    rw [Valuation.within, if_pos isOuter]
    exact sees.reads bindings bound name member isOuter site defined
  · intro name member undefined
    have notOuter : ¬outer name = true := by
      intro isOuter
      obtain ⟨site, defined⟩ := (sees.defined name (mentioned name member)).1 isOuter
      rw [undefined] at defined
      cases defined
    have inside : atom.args.idxOf (.var name) < row.length := length ▸ List.idxOf_lt_length_of_mem member
    rw [Valuation.within, if_neg notOuter, Nat.zero_add, List.getElem?_eq_getElem inside]
    rfl
  · rw [Nat.zero_add, length]
    exact Nat.le_refl _

/-- The condition of an aggregate decides whether the bound row is admitted. -/
theorem decides_admits {comparisons constraints : List Cond} (plain : aggregate.Plain) (noBook : plan.auxiliary = 0)
    (bound : state.bindings.lookup tuple = some row) (member : row ∈ state.store.rows atom.relation.text)
    (length : row.length = atom.arity)
    (ahead : Ahead sites state.bindings words aggregate.toArgument.variables row 0 atom.args)
    (isSites : aggregateSitesCode ordinal tuple sites atom.args.zipIdx = some (inner, comparisons))
    (isConstraints : aggregate.body.filterMapM (constraintCode ordinal plan inner) = some constraints) :
    (∀ name ∈ aggregate.toArgument.variables, Reads inner state.bindings words name) ∧
      Decides args state (allOf (comparisons ++ constraints))
        (aggregate.Admits ordinal (storedRows state.store) atom words row) := by
  obtain ⟨reads, decidesMatch, meansMatch⟩ := decides_aggregateSites bound ahead isSites
  have checks : ∀ literal ∈ aggregate.body, ∀ found, constraintCode ordinal plan inner literal = some found →
      Checks args state (Passes ordinal plan.auxiliary words state.store literal) found := by
    intro literal isLiteral found code
    refine checks_terms (plain.body literal isLiteral) (fun name isVariable => reads name ?_) code
    exact List.mem_append_right _ (Literal.mem_variablesOfAll.2 ⟨literal, isLiteral, isVariable⟩)
  obtain ⟨decidesBody, meansBody⟩ := decides_filterMapM checks isConstraints
  refine ⟨reads, (Decides.allOf fun condition isCondition => (List.mem_append.1 isCondition).elim
    (decidesMatch condition) (decidesBody condition)).congr ?_⟩
  rw [List.forall_mem_append, meansMatch, meansBody, noBook, List.drop_zero,
    List.take_of_length_le (show row.length ≤ atom.args.length from Nat.le_of_eq length)]
  refine and_congr_right fun isMatch => forall_congr' fun literal => forall_congr' fun isLiteral => ?_
  cases isAtom : literal.positiveAtom? with
  | none => exact passes_iff_holds_stored isAtom
  | some found =>
      cases literal with
      | positive relation terms =>
          cases eq_of_single single isLiteral
          exact iff_of_true trivial ⟨row, member, isMatch⟩
      | _ => cases isAtom

end Single

theorem bound_of_begins {bindings : Bindings} (bound : Bound bindings rows) (begins : choice <+: rows) :
    Bound bindings choice := by
  obtain ⟨more, rfl⟩ := begins
  intro position row found
  obtain ⟨inside, _⟩ := List.getElem?_eq_some_iff.1 found
  exact bound position row (by rw [List.getElem?_append_left inside, found])

theorem bound_set {bindings : Bindings} (bound : Bound bindings rows) (behind : rows.length ≤ tuple) (row : Row) :
    Bound (bindings.set tuple row) rows := by
  intro position other found
  obtain ⟨inside, _⟩ := List.getElem?_eq_some_iff.1 found
  rw [Bindings.lookup_set, if_neg (by omega)]
  exact bound position other found

open Classical in
/-- The values for the rows that satisfy the condition are collected, in their order. -/
theorem returns_collectValues {condition : Cond} {value : Option Expr} {admits : Row → Prop} {word : Row → Int64}
    {table : List Row}
    (each : ∀ row ∈ table, ∀ bindings, Bound bindings rows → bindings.lookup rows.length = some row →
      Decides args { state with bindings := bindings } condition (admits row) ∧
        Returns (evalFolded args value) { state with bindings := bindings } (word row)
          { state with bindings := bindings }) :
    ∀ bindings, Bound bindings rows → ∃ final, Bound final rows ∧
      Returns (collectValues rows.length (evalCond args condition) (evalFolded args value) table)
        { state with bindings := bindings } ((table.filter fun row => admits row).map word)
        { state with bindings := final } := by
  induction table with
  | nil => exact fun bindings bound => ⟨bindings, bound, Returns.pure _ _⟩
  | cons row table ih =>
      intro bindings bound
      have stillBound := bound_set bound (Nat.le_refl _) row
      obtain ⟨⟨answer, tested, means⟩, folded⟩ := each row List.mem_cons_self _ stillBound
        (by rw [Bindings.lookup_set, if_pos rfl])
      obtain ⟨final, finallyBound, others⟩ :=
        ih (fun other member => each other (List.mem_cons_of_mem _ member)) _ stillBound
      refine ⟨final, finallyBound, ?_⟩
      rw [collectValues, List.filter_cons]
      refine (Returns.bindRow _ row _).bind (tested.bind ?_)
      cases answer with
      | true =>
          rw [if_pos rfl, if_pos (decide_eq_true (means.1 rfl)), List.map_cons]
          exact folded.bind (others.bind (Returns.pure _ _))
      | false =>
          have rejected : ¬admits row := fun isAdmitted => Bool.false_ne_true (means.2 isAdmitted)
          rw [if_neg Bool.false_ne_true, if_neg (by simpa using rejected)]
          exact others

theorem returns_folded {value : Option Expr} (plain : aggregate.Plain)
    (reads : ∀ name ∈ aggregate.toArgument.variables, Reads inner state.bindings words name)
    (code : targetCode ordinal inner aggregate.target = some value) :
    Returns (evalFolded args value) state (aggregate.folded ordinal words) state := by
  rw [Aggregate.folded]
  cases isTarget : aggregate.target with
  | none =>
      rw [isTarget] at code
      cases code
      exact Returns.pure _ _
  | some target =>
      rw [isTarget] at code
      obtain ⟨expr, isExpr, rfl⟩ := Option.map_eq_some_iff.1 code
      refine returns_value (plain.target target isTarget) isExpr fun name isVariable => reads name ?_
      refine List.mem_append_left _ ?_
      rw [isTarget]
      exact isVariable

/-- The rows of the relation of an aggregate's atom have the columns of the atom. -/
def Fitting (aggregate : Aggregate) (store : Store) : Prop :=
  ∀ relation terms, .positive relation terms ∈ aggregate.body →
    ∀ row ∈ store.rows relation.text, row.length = terms.length

/-- An aggregate has its value bound where what is nested runs, or nothing runs if it has none. -/
theorem folds_aggregate {outer : String → Bool} {nested operation : Op} (plain : aggregate.Plain)
    (noBook : plan.auxiliary = 0) (sees : Sees sites outer valuation choice aggregate) (begins : choice <+: rows)
    (fitting : Fitting aggregate state.store)
    (code : aggregateCode ordinal plan sites aggregate rows.length nested = some operation)
    (bound : Bound state.bindings rows) :
    ∃ bindings, Bound bindings rows ∧
      match aggregate.result? ordinal (storedRows state.store) outer valuation with
      | none => Returns (runOp args operation) state .proceed { state with bindings := bindings }
      | some value => ∀ flow final,
          Returns (runOp args nested) { state with bindings := bindings.set rows.length [value] } flow final →
            Returns (runOp args operation) state flow final := by
  obtain ⟨atom, inner, comparisons, constraints, value, single, _, isSites, areConstraints, isValue, rfl⟩ :=
    aggregateCode_eq_some code
  have collected := @returns_collectValues args state rows (allOf (comparisons ++ constraints)) value
    (fun row => aggregate.Admits ordinal (storedRows state.store) atom (valuation.within outer atom.args row) row)
    (fun row => aggregate.folded ordinal (valuation.within outer atom.args row))
    (storedRows state.store atom.relation) (fun row member bindings isBound atTuple => by
      have length := fitting atom.relation atom.args (mem_of_single single) row member
      have ahead := sees.ahead single plain (bound_of_begins isBound begins) length
      have decided : _ ∧ Decides args { state with bindings := bindings } _ _ :=
        decides_admits single plain noBook atTuple member length ahead isSites areConstraints
      obtain ⟨reads, decides⟩ := decided
      exact ⟨decides, returns_folded plain reads isValue⟩) state.bindings bound
  obtain ⟨bindings, stillBound, values⟩ := collected
  refine ⟨bindings, stillBound, ?_⟩
  rw [Aggregate.result?, single]
  simp only
  have rows := Returns.rowsOf atom.relation.text state
  split
  · next isNone =>
      rw [runOp]
      refine rows.bind (values.bind ?_)
      rw [isNone]
      exact Returns.pure _ _
  · next result isSome =>
      intro flow final ran
      rw [runOp]
      refine rows.bind (values.bind ?_)
      rw [isSome]
      exact (Returns.bindRow _ _ _).bind ran

/-! ## The aggregates of a clause -/

/-- Code leads to a store and keeps the rows of a choice bound. -/
def Leaves (code : Exec Flow) (state : State) (choice : List Row) (store : Store) : Prop :=
  ∃ bindings, Bound bindings choice ∧
    Returns code state .proceed { state with store := store, bindings := bindings }

/-- The value of an aggregate as a row, behind the rows of a choice. -/
noncomputable def resultRow (ordinal : String → Int64) (store : Store) (outer : String → Bool) (valuation : Valuation)
    (aggregate : Aggregate) : Row :=
  [(aggregate.result? ordinal (storedRows store) outer valuation).getD 0]

/-- An aggregate that can be folded for a choice of rows. -/
structure Folds (sites : Sites) (outer : String → Bool) (valuation : Valuation) (choice : List Row) (store : Store)
    (aggregate : Aggregate) : Prop where
  plain : aggregate.Plain
  sees : Sees sites outer valuation choice aggregate
  fitting : Fitting aggregate store

/-- What is inside several aggregates runs with the values of all of them bound, unless one has none. -/
theorem leaves_aggregated {outer : String → Bool} {inner : Op} {count : Nat} {store : Store} {rest : List Aggregate}
    (noBook : plan.auxiliary = 0) (folds : ∀ aggregate ∈ rest, Folds sites outer valuation choice state.store aggregate)
    {first : Nat} {operation : Op}
    (code : (rest.zipIdx first).foldrM
      (fun entry operation => aggregateCode ordinal plan sites entry.1 (count + entry.2) operation) inner =
        some operation)
    (begins : choice <+: rows) (length : rows.length = count + first) (bound : Bound state.bindings rows)
    (returns : (∀ aggregate ∈ rest, (aggregate.result? ordinal (storedRows state.store) outer valuation).isSome) →
      ∀ bindings, Bound bindings (rows ++ rest.map (resultRow ordinal state.store outer valuation)) →
        Leaves (runOp args inner) { state with bindings := bindings } choice store)
    (otherwise : ¬(∀ aggregate ∈ rest,
      (aggregate.result? ordinal (storedRows state.store) outer valuation).isSome) → store = state.store) :
    Leaves (runOp args operation) state choice store := by
  -- `rows` are the choice and the values of the aggregates before. Folding binds the candidates of the next aggregate
  -- where its value comes to stand, so the rows before are still bound when it is done.
  induction rest generalizing first rows operation state with
  | nil =>
      cases code
      rw [List.map_nil, List.append_nil] at returns
      exact returns (by simp) state.bindings bound
  | cons aggregate rest ih =>
      rw [List.zipIdx_cons, List.foldrM_cons] at code
      obtain ⟨nested, isNested, code⟩ := Option.bind_eq_some_iff.1 code
      obtain ⟨plain, sees, fitting⟩ := folds aggregate List.mem_cons_self
      obtain ⟨bindings, stillBound, ran⟩ := folds_aggregate plain noBook sees begins fitting (length ▸ code) bound
      rw [List.forall_mem_cons] at returns otherwise
      cases isResult : aggregate.result? ordinal (storedRows state.store) outer valuation with
      | none =>
          rw [isResult] at ran otherwise
          obtain rfl : store = state.store := otherwise (by simp)
          exact ⟨bindings, bound_of_begins stillBound begins, ran⟩
      | some value =>
          rw [isResult] at ran otherwise
          have isRow : resultRow ordinal state.store outer valuation aggregate = [value] := by
            rw [resultRow, isResult]
            rfl
          rw [List.map_cons, isRow, List.append_cons] at returns
          have inside : Leaves (runOp args nested)
              { state with bindings := bindings.set rows.length [value] } choice store := by
            refine @ih { state with bindings := bindings.set rows.length [value] } (rows ++ [[value]])
              (fun other member => folds other (List.mem_cons_of_mem _ member)) (first + 1) nested isNested
              (begins.trans (List.prefix_append _ _)) (by rw [List.length_append, length]; rfl)
              (bound_snoc stillBound _) (fun all => returns ⟨by rw [isResult]; rfl, all⟩) fun fails =>
                otherwise fun both => fails both.2
          obtain ⟨last, lastBound, left⟩ := inside
          exact ⟨last, lastBound, ran _ _ left⟩

end DatalogRam.Lowering
