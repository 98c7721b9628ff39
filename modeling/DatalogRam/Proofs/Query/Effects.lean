import DatalogRam.Proofs.Query.Scans

/-!
# What the query of a clause does to a store

The query of a simple clause inserts the head for each choice of rows that is selected for its positive atoms and
passes its other literals, unless the guard of the insertion keeps it out. `returns_clause` says that it does just
that, one choice after another.
-/

namespace DatalogRam.Lowering

open Machine Ram

/-- The logical content of a table: the rows without their bookkeeping columns. -/
def content (store : Store) (table : String) (arity auxiliary : Nat) : Set Row :=
  {row | ∃ full ∈ store.rows table, full.length = arity + auxiliary ∧ full.take arity = row}

/-- The literals other than positive atoms hold, with negated atoms read in the store. -/
def Passes (ordinal : String → Int64) (auxiliary : Nat) (valuation : Valuation) (store : Store) :
    Literal → Prop
  | .positive .. => True
  | .negative relation args =>
      ¬∃ row ∈ content store relation.text args.length auxiliary, Argument.Match ordinal valuation args row
  | .comparison op left right =>
      op.holds (left.value ordinal valuation) (right.value ordinal valuation) = true
  | .truth value => value = true

/-- The table into which a version of a clause's query inserts. -/
def Version.target (version : Version) (relation : Name) : String :=
  if version.isIncremental then freshName relation else relation.text

/-- The guard of an insertion lets a row pass. -/
def Unguarded (auxiliary : Nat) (version : Version) (head : Atom) (row : Row) (store : Store) : Prop :=
  if 0 < auxiliary ∨ version.isIncremental = true then
    row ∉ content store head.relation.text head.arity auxiliary
  else if head.arity = 0 then ∀ other, other ∉ store.rows head.relation.text
  else True

/-- The levels of the rows of atoms. -/
def bodyLevelsOf (atoms : List Atom) (rows : List Row) : List Int64 :=
  atoms.zipIdx.map fun entry => ((rows[entry.2]?).bind fun row => row[entry.1.arity + 1]?).getD 0

/-- The level of a derivation from the rows of atoms. -/
def levelOf (atoms : List Atom) (rows : List Row) : Int64 :=
  match foldFirst greater (bodyLevelsOf atoms rows) with
  | none => 0
  | some highest => highest + 1

/-- The bookkeeping columns of a derived row. -/
def bookkept (plan : Plan) (clause : Clause) (id : Nat) (rows : List Row) : Row :=
  match plan.strategy with
  | .seminaive => []
  | .provenance =>
      [Int64.ofNat ((plan.clauseNumber clause id).toOption.getD 0), levelOf clause.positiveAtoms rows]

/-- The row that a clause derives from rows of its positive atoms, with its bookkeeping columns. -/
def derivedRow (ordinal : String → Int64) (plan : Plan) (clause : Clause) (id : Nat) (rows : List Row) : Row :=
  clause.headRow ordinal (valuationOf clause.positiveAtoms rows) ++ bookkept plan clause id rows

open Classical in
/-- What the insertion of a head does for one choice of rows. -/
noncomputable def insertHead (ordinal : String → Int64) (plan : Plan) (clause : Clause) (id : Nat)
    (version : Version) (rows : List Row) (store : Store) : Store :=
  let head := clause.headRow ordinal (valuationOf clause.positiveAtoms rows)
  if Unguarded plan.auxiliary version clause.head head store then
    store.insert (version.target clause.head.relation) (derivedRow ordinal plan clause id rows)
  else store

open Classical in
/-- What a query does for one choice of rows. -/
noncomputable def derive (ordinal : String → Int64) (plan : Plan) (clause : Clause) (id : Nat)
    (version : Version) (rows : List Row) (store : Store) : Store :=
  let valuation := valuationOf clause.positiveAtoms rows
  if ∀ literal ∈ clause.body, Passes ordinal plan.auxiliary valuation store literal then
    insertHead ordinal plan clause id version rows store
  else store

variable {ordinal : String → Int64} {plan : Plan} {clause : Clause} {id : Nat} {version : Version}
variable {args : Row} {state : State} {sites : Sites} {valuation : Valuation}

/-! ## Constraints -/

/-- The literals other than positive atoms hold, given the values of aggregates. -/
def PassesWith (ordinal : String → Int64) (auxiliary : Nat) (valuation : Valuation) (results : Aggregate → Int64)
    (store : Store) : Literal → Prop
  | .comparison op left right =>
      op.holds (left.valueWith ordinal valuation results) (right.valueWith ordinal valuation results) = true
  | literal => Passes ordinal auxiliary valuation store literal

variable {results : Aggregate → Int64}

theorem passesWith_iff_passes {auxiliary : Nat} {store : Store} {literal : Literal}
    (terms : literal.Plain Argument.isTerm) :
    PassesWith ordinal auxiliary valuation results store literal ↔
      Passes ordinal auxiliary valuation store literal := by
  cases literal with
  | comparison op left right =>
      rw [PassesWith, Passes, Argument.valueWith_of_isTerm terms.1, Argument.valueWith_of_isTerm terms.2]
  | _ => rfl

/-- The code of a literal checks whether it passes. -/
theorem checks_constraint {literal : Literal} {found : Option Cond} (plain : literal.Plain Argument.isComputed)
    (reads : ∀ name ∈ literal.variables, Reads sites state.bindings valuation name)
    (aggregates : ∀ aggregate ∈ Literal.aggregates literal, ReadsResult sites state.bindings results aggregate)
    (code : constraintCode ordinal plan sites literal = some found) :
    Checks args state (PassesWith ordinal plan.auxiliary valuation results state.store literal) found := by
  cases literal with
  | positive relation terms =>
      cases code
      trivial
  | negative relation terms =>
      obtain ⟨_, exprs, values, rfl⟩ := constraintCode_negative_eq_some code
      refine (decides_existence plain values reads).not.congr (not_congr ⟨?_, ?_⟩)
      · rintro ⟨row, inTable, length, isMatch⟩
        exact ⟨row.take terms.length, ⟨row, inTable, length, rfl⟩, isMatch⟩
      · rintro ⟨_, ⟨row, inTable, length, rfl⟩, isMatch⟩
        exact ⟨row, inTable, length, isMatch⟩
  | comparison op left right =>
      obtain ⟨first, second, isFirst, isSecond, rfl⟩ := constraintCode_comparison_eq_some code
      refine decides_compare (returns_valueWith plain.1 isFirst ?_ ?_) (returns_valueWith plain.2 isSecond ?_ ?_)
      · exact fun name member => reads name (List.mem_append_left _ member)
      · exact fun aggregate member => aggregates aggregate (List.mem_append_left _ member)
      · exact fun name member => reads name (List.mem_append_right _ member)
      · exact fun aggregate member => aggregates aggregate (List.mem_append_right _ member)
  | truth value =>
      cases value with
      | true =>
          cases code
          exact ⟨true, Returns.pure _ _, Iff.rfl⟩
      | false =>
          cases code
          exact ⟨false, Returns.pure _ _, Iff.rfl⟩

theorem checks_terms {literal : Literal} {found : Option Cond} (terms : literal.Plain Argument.isTerm)
    (reads : ∀ name ∈ literal.variables, Reads sites state.bindings valuation name)
    (code : constraintCode ordinal plan sites literal = some found) :
    Checks args state (Passes ordinal plan.auxiliary valuation state.store literal) found := by
  have checks : Checks args state
      (PassesWith ordinal plan.auxiliary valuation (fun _ => 0) state.store literal) found := by
    refine checks_constraint terms.computed reads (fun aggregate member => ?_) code
    rw [terms.aggregates_eq] at member
    cases member
  exact checks.congr (passesWith_iff_passes terms)

/-- An operation under the constraints of a body runs if all of them hold. -/
theorem returns_constrainedCode {body : List Literal} {fact : Literal → Prop} {inner operation : Op} {flow : Flow}
    {final : State}
    (checks : ∀ literal ∈ body, ∀ found, constraintCode ordinal plan sites literal = some found →
      Checks args state (fact literal) found)
    (code : constrainedCode ordinal plan sites body inner = some operation)
    (returns : (∀ literal ∈ body, fact literal) → Returns (runOp args inner) state flow final)
    (otherwise : ¬(∀ literal ∈ body, fact literal) → flow = .proceed ∧ final = state) :
    Returns (runOp args operation) state flow final := by
  induction body generalizing operation with
  | nil =>
      cases code
      exact returns (by simp)
  | cons literal rest ih =>
      rw [constrainedCode, List.foldrM_cons] at code
      obtain ⟨nested, others, guarded⟩ := Option.bind_eq_some_iff.1 code
      rw [Option.map_eq_some_iff] at guarded
      obtain ⟨condition, isCondition, rfl⟩ := guarded
      rw [List.forall_mem_cons] at returns otherwise
      have run (holds : fact literal) : Returns (runOp args nested) state flow final :=
        ih (fun other isOther => checks other (List.mem_cons_of_mem _ isOther)) others
          (fun all => returns ⟨holds, all⟩) fun fails => otherwise fun both => fails both.2
      have first := checks literal List.mem_cons_self condition isCondition
      cases condition with
      | none => exact run first
      | some condition => exact returns_filter first run fun fails => otherwise fun both => fails both.1

theorem returns_constrained {body : List Literal} {inner operation : Op} {flow : Flow} {final : State}
    (simple : clause.Simple) (within : body ⊆ clause.body)
    (reads : ∀ name, Reads sites state.bindings valuation name)
    (code : constrainedCode ordinal plan sites body inner = some operation)
    (returns : (∀ literal ∈ body, Passes ordinal plan.auxiliary valuation state.store literal) →
      Returns (runOp args inner) state flow final)
    (otherwise : ¬(∀ literal ∈ body, Passes ordinal plan.auxiliary valuation state.store literal) →
      flow = .proceed ∧ final = state) :
    Returns (runOp args operation) state flow final := by
  refine returns_constrainedCode (fun literal member found isCode => ?_) code returns otherwise
  exact checks_terms (simple.plain (within member)) (fun name _ => reads name) isCode

/-! ## Insertions -/

theorem returns_append {middle final : State} {first second : List Expr} {values more : List Int64}
    (isFirst : Returns (evalExprs args first) state values middle)
    (isSecond : Returns (evalExprs args second) middle more final) :
    Returns (evalExprs args (first ++ second)) state (values ++ more) final := by
  induction first generalizing state values with
  | nil =>
      rw [evalExprs] at isFirst
      obtain ⟨rfl, rfl⟩ := isFirst.eq_of_pure
      exact isSecond
  | cons expr rest ih =>
      rw [evalExprs] at isFirst
      obtain ⟨value, between, head, tail⟩ := isFirst.of_bind
      obtain ⟨others, last, ran, done⟩ := tail.of_bind
      obtain ⟨rfl, rfl⟩ := done.eq_of_pure
      rw [List.cons_append, List.cons_append, evalExprs]
      exact head.bind ((ih ran).bind (Returns.pure _ _))

theorem returns_map {α : Type} {elements : List α} {code : α → Expr} {value : α → Int64}
    (each : ∀ element ∈ elements, Returns (evalExpr args (code element)) state (value element) state) :
    Returns (evalExprs args (elements.map code)) state (elements.map value) state := by
  induction elements with
  | nil => exact Returns.pure _ _
  | cons element rest ih =>
      rw [List.map_cons, List.map_cons, evalExprs]
      refine (each element List.mem_cons_self).bind ?_
      exact (ih fun other member => each other (List.mem_cons_of_mem _ member)).bind (Returns.pure _ _)

theorem returns_levels {atoms : List Atom} {rows : List Row} (bound : Bound state.bindings rows)
    (long : ∀ (position : Nat) (atom : Atom), atoms[position]? = some atom →
      ∃ row : Row, rows[position]? = some row ∧ atom.arity + 1 < row.length) :
    Returns (evalExprs args (levelCodes atoms)) state (bodyLevelsOf atoms rows) state := by
  refine returns_map fun entry member => ?_
  obtain ⟨row, isRow, wide⟩ := long entry.2 entry.1 (List.mem_zipIdx_iff_getElem?.1 member)
  have inRow := List.getElem?_eq_getElem wide
  rw [isRow, Option.bind_some, inRow]
  exact Returns.elementOf (bound entry.2 row isRow) inRow

theorem returns_headLevel {atoms : List Atom} {rows : List Row} (bound : Bound state.bindings rows)
    (long : ∀ (position : Nat) (atom : Atom), atoms[position]? = some atom →
      ∃ row : Row, rows[position]? = some row ∧ atom.arity + 1 < row.length) :
    Returns (evalExpr args (headLevelCode atoms)) state (levelOf atoms rows) state := by
  have levels : Returns (evalExprs args (levelCodes atoms)) state _ state := returns_levels bound long
  have one : Returns (evalExprs args [.signed 1]) state [1] state := rfl
  rw [headLevelCode, levelOf]
  rw [levelCodes, bodyLevelsOf] at levels ⊢
  revert levels
  match atoms.zipIdx with
  | [] => exact fun _ => Returns.pure _ _
  | [entry] =>
      intro level
      exact returns_operator (returns_append level one) rfl
  | first :: second :: rest =>
      intro levels
      have highest : Returns (evalExpr args (.operator .max _)) state _ state := returns_operator levels rfl
      have both : Returns (evalExprs args [.operator .max _, .signed 1]) state _ state :=
        highest.bind (one.bind (Returns.pure _ _))
      exact returns_operator both rfl

theorem returns_bookkeeping {level : Expr} {auxiliary : List Expr} {rows : List Row}
    (code : bookkeeping plan clause id level = some auxiliary)
    (isLevel : plan.strategy = .provenance →
      Returns (evalExpr args level) state (levelOf clause.positiveAtoms rows) state) :
    Returns (evalExprs args auxiliary) state (bookkept plan clause id rows) state := by
  rw [bookkeeping] at code
  rw [bookkept]
  cases strategy : plan.strategy with
  | seminaive =>
      rw [strategy] at code
      cases code
      exact Returns.pure _ _
  | provenance =>
      rw [strategy] at code
      obtain ⟨number, isNumber, same⟩ := Option.bind_eq_some_iff.1 code
      cases same
      rw [isNumber]
      have ruled : Returns (evalExpr args (.signed (Int64.ofNat number))) state _ state := Returns.pure _ _
      have single : Returns (evalExprs args [level]) state _ state := (isLevel strategy).bind rfl
      exact ruled.bind (single.bind (Returns.pure _ _))

theorem match_iff_eq_values {terms : List Argument} {row : Row} (areTerms : ∀ arg ∈ terms, arg.isTerm = true) :
    Argument.Match ordinal valuation terms row ↔ row = Argument.values ordinal valuation terms := by
  induction terms generalizing row with
  | nil => cases row <;> simp [Argument.Match, Argument.values]
  | cons term terms ih =>
      have named : term ≠ .unnamed := by
        rintro rfl
        exact absurd (areTerms _ List.mem_cons_self) (by simp [Argument.isTerm])
      cases row with
      | nil => simp [Argument.Match, Argument.values]
      | cons word row =>
          rw [Argument.Match, Argument.values, ih fun arg member => areTerms arg (List.mem_cons_of_mem _ member),
            List.cons.injEq]
          simp only [named, false_or]
          rw [eq_comm]

/-- The guard of an insertion decides whether the row may pass. -/
theorem decides_guard {logical : List Expr} {condition : Cond} (simple : clause.Simple)
    (values : valueCodes ordinal sites clause.head.args = some logical)
    (reads : ∀ name, Reads sites state.bindings valuation name)
    (code : guardCode plan clause.head logical version.isIncremental = some condition) :
    Decides args state condition
      (Unguarded plan.auxiliary version clause.head (clause.headRow ordinal valuation) state.store) := by
  rw [guardCode] at code
  rw [Unguarded]
  split at code
  · next guarded =>
      have guarded' : 0 < plan.auxiliary ∨ version.isIncremental = true := by simpa using guarded
      cases code
      rw [if_pos guarded']
      refine (decides_existence (fun arg member => .inr (simple.head arg member)) values
        fun name _ => reads name).not.congr (not_congr ?_)
      refine exists_congr fun row => and_congr_right fun _ => and_congr_right fun _ => ?_
      exact match_iff_eq_values simple.head
  · next unguarded =>
      have unguarded' : ¬(0 < plan.auxiliary ∨ version.isIncremental = true) := by simpa using unguarded
      rw [if_neg unguarded']
      split at code
      · next empty =>
          cases code
          rw [if_pos empty]
          exact decides_isEmpty _
      · cases code

theorem unguarded_of_no_guard {logical : List Expr} {row : Row} {store : Store}
    (code : guardCode plan clause.head logical version.isIncremental = none) :
    Unguarded plan.auxiliary version clause.head row store := by
  rw [guardCode] at code
  rw [Unguarded]
  split at code
  · cases code
  · next unguarded =>
      have unguarded' : ¬(0 < plan.auxiliary ∨ version.isIncremental = true) := by simpa using unguarded
      rw [if_neg unguarded']
      split at code
      · cases code
      · next wide =>
          rw [if_neg wide]
          trivial

/-- The insertion of a head inserts the derived row if its guard lets it pass. -/
theorem returns_head {inner : Op} {level : Expr} {rows : List Row} (simple : clause.Simple)
    (reads : ∀ name, Reads sites state.bindings (valuationOf clause.positiveAtoms rows) name)
    (isLevel : plan.strategy = .provenance →
      Returns (evalExpr args level) state (levelOf clause.positiveAtoms rows) state)
    (code : headCode ordinal plan clause id sites level version.isIncremental = some inner) :
    Returns (runOp args inner) state .proceed
      { state with store := insertHead ordinal plan clause id version rows state.store } := by
  obtain ⟨logical, auxiliary, values, books, rfl⟩ := headCode_eq_some code
  have head : Returns (evalExprs args logical) state _ state :=
    returns_values (Argument.areTerms_iff.2 simple.head) values fun name _ => reads name
  have row := returns_append head (returns_bookkeeping books isLevel)
  have inserted : Returns (runOp args (.insert (version.target clause.head.relation) (logical ++ auxiliary)))
      state .proceed
      { state with store :=
          state.store.insert (version.target clause.head.relation) (derivedRow ordinal plan clause id rows) } :=
    row.bind rfl
  rw [insertionCode, insertHead]
  cases guard : guardCode plan clause.head logical version.isIncremental with
  | none =>
      rw [if_pos (unguarded_of_no_guard guard)]
      exact inserted
  | some condition =>
      refine returns_filter (decides_guard simple values reads guard) (fun passes => ?_) fun fails => ⟨rfl, ?_⟩
      · rw [if_pos passes]
        exact inserted
      · rw [if_neg fails]

/-! ## Whole queries -/

/-- All rows of the tables of the atoms have as many columns as the atoms and the bookkeeping together. -/
def Shaped (version : Version) (auxiliary : Nat) (atoms : List Atom) (store : Store) : Prop :=
  ∀ position atom, atoms[position]? = some atom →
    ∀ row ∈ store.rows (version.source position atom.relation), row.length = atom.arity + auxiliary

/-- No atom is read in the table into which the query inserts. -/
def Apart (version : Version) (clause : Clause) : Prop :=
  ∀ position atom, clause.positiveAtoms[position]? = some atom →
    version.source position atom.relation ≠ version.target clause.head.relation

theorem Shaped.wide {auxiliary : Nat} {atoms : List Atom} {store : Store}
    (shaped : Shaped version auxiliary atoms store) : Wide version atoms store := by
  intro position atom atPosition row member
  rw [shaped position atom atPosition row member]
  omega

section Choice

variable {atoms : List Atom} {auxiliary : Nat} {store : Store} {rows : List Row}
  (shaped : Shaped version auxiliary atoms store) (length : rows.length = atoms.length)
  (selected : Selected ordinal version atoms store rows)

include shaped length selected

/-- In a choice with a row for each atom the rows have the columns of the atoms and the bookkeeping. -/
theorem Selected.exists_row (position : Nat) (atom : Atom) (atPosition : atoms[position]? = some atom) :
    ∃ row : Row, rows[position]? = some row ∧ row.length = atom.arity + auxiliary := by
  obtain ⟨inside, _⟩ := List.getElem?_eq_some_iff.1 atPosition
  have isRow := List.getElem?_eq_getElem (length ▸ inside)
  obtain ⟨other, isOther, member, _⟩ := selected position _ isRow
  rw [atPosition, Option.some.injEq] at isOther
  subst isOther
  exact ⟨_, isRow, shaped position atom atPosition _ member⟩

/-- In a choice with a row for each atom all variables have their words. -/
theorem Selected.reads {bindings : Bindings} (bound : Bound bindings rows) (name : String) :
    Reads (atomSites atoms) bindings (valuationOf atoms rows) name := by
  refine reads_of_bound bound (fun position row atom isRow atPosition => ?_) fun site defined => ?_
  · obtain ⟨other, isOther, long⟩ := Selected.exists_row shaped length selected position atom atPosition
    rw [isRow, Option.some.injEq] at isOther
    subst isOther
    omega
  · obtain ⟨atom, atTuple, _⟩ := argument_of_definition defined
    rw [length]
    exact (List.getElem?_eq_some_iff.1 atTuple).1

end Choice

/-- The query of a simple rule consists of scans, constraints and its middle. -/
theorem ruleCode_simple {middle : Frame → Option Op} {statement : Stmt} (simple : clause.Simple)
    (code : ruleCode ordinal plan clause version middle = some statement) :
    ∃ inner constrained scanned,
      middle (simpleFrame clause) = some inner ∧
      constrainedCode ordinal plan (atomSites clause.positiveAtoms) clause.body inner = some constrained ∧
      clause.positiveAtoms.zipIdx.foldrM
        (fun entry operation =>
          scanCode ordinal version (atomSites clause.positiveAtoms) entry.1 entry.2 operation) constrained =
        some scanned ∧
      statement = .query scanned := by
  obtain ⟨frame, inner, constrained, aggregated, operation, isFrame, isInner, isConstrained, isAggregated, isScanned,
    rfl⟩ := ruleCode_eq_some code
  rw [frameOf_simple simple] at isFrame
  split at isFrame
  · cases isFrame
    cases isAggregated
    exact ⟨inner, constrained, operation, isInner, isConstrained, isScanned, rfl⟩
  · cases isFrame

/-- A query of a simple clause consists of scans, constraints and an insertion. -/
theorem clauseQuery_simple {statement : Stmt} (simple : clause.Simple)
    (isFact : clause.isFact = true → version = .complete)
    (code : clauseQuery ordinal plan clause id version = some statement) :
    ∃ inner constrained scanned,
      headCode ordinal plan clause id (atomSites clause.positiveAtoms) (headLevelCode clause.positiveAtoms)
        version.isIncremental = some inner ∧
      constrainedCode ordinal plan (atomSites clause.positiveAtoms) clause.body inner = some constrained ∧
      clause.positiveAtoms.zipIdx.foldrM
        (fun entry operation =>
          scanCode ordinal version (atomSites clause.positiveAtoms) entry.1 entry.2 operation) constrained =
        some scanned ∧
      statement = .query scanned := by
  rw [clauseQuery] at code
  split at code
  · next fact =>
      have noBody : clause.body = [] := List.isEmpty_iff.1 fact
      have noAtoms : clause.positiveAtoms = [] := by
        rw [Clause.positiveAtoms, noBody]
        rfl
      obtain ⟨inner, isInner, rfl⟩ := factCode_eq_some code
      rw [isFact fact, noAtoms, noBody]
      exact ⟨inner, inner, inner, isInner, rfl, rfl, rfl⟩
  · exact ruleCode_simple simple code

theorem sameTables_insert {start store : Store} {row : Row} (apart : Apart version clause)
    (same : SameTables version clause.positiveAtoms start store) :
    SameTables version clause.positiveAtoms start (store.insert (version.target clause.head.relation) row) := by
  intro position atom atPosition
  rw [Store.rows_insert, if_neg (apart position atom atPosition)]
  exact same position atom atPosition

theorem sameTables_derive {start store : Store} {rows : List Row} (apart : Apart version clause)
    (same : SameTables version clause.positiveAtoms start store) :
    SameTables version clause.positiveAtoms start (derive ordinal plan clause id version rows store) := by
  rw [derive, insertHead]
  split
  · split
    · exact sameTables_insert apart same
    · exact same
  · exact same

theorem inner_simple {start : Store} {inner constrained : Op} (simple : clause.Simple)
    (apart : Apart version clause) (shaped : Shaped version plan.auxiliary clause.positiveAtoms start)
    (isInner : headCode ordinal plan clause id (atomSites clause.positiveAtoms)
      (headLevelCode clause.positiveAtoms) version.isIncremental = some inner)
    (isConstrained : constrainedCode ordinal plan (atomSites clause.positiveAtoms) clause.body inner =
      some constrained) :
    Inner args ordinal version clause.positiveAtoms start (SameTables version clause.positiveAtoms start) constrained
      fun rows store => (none, derive ordinal plan clause id version rows store) where
  tables := fun _ same => same
  keeps := fun rows store same => sameTables_derive apart same
  returns := by
    intro rows state length selected bound same
    have reads := Selected.reads shaped length selected bound
    apply Runs.of_returns
    refine returns_constrained simple (List.Subset.refl _) reads isConstrained (fun passes => ?_) fun fails => ?_
    · rw [derive, if_pos passes]
      refine returns_head simple reads (fun strategy => ?_) isInner
      refine returns_headLevel bound fun position atom atPosition => ?_
      obtain ⟨row, isRow, long⟩ := Selected.exists_row shaped length selected position atom atPosition
      refine ⟨row, isRow, ?_⟩
      rw [long, auxiliary_of_provenance strategy]
      exact Nat.lt_succ_self _
    · rw [derive, if_neg fails]
      exact ⟨rfl, rfl⟩

theorem visitAll_none (change : List Row → Store → Store) (visited : List (List Row)) (store : Store) :
    visitAll (fun rows store => (none, change rows store)) visited store =
      (none, visited.foldl (fun store rows => change rows store) store) := by
  induction visited generalizing store with
  | nil => rfl
  | cons rows rest ih => exact ih (change rows store)

/-- The query of a simple clause derives from one selected choice of rows after another. -/
theorem returns_clause {statement : Stmt} {start : Store} (simple : clause.Simple)
    (isFact : clause.isFact = true → version = .complete) (apart : Apart version clause)
    (shaped : Shaped version plan.auxiliary clause.positiveAtoms start)
    (code : clauseCode ordinal plan clause id version = some statement) :
    ∃ visited : List (List Row), (∀ choice, choice ∈ visited ↔ choice.length = clause.positiveAtoms.length ∧
        Selected ordinal version clause.positiveAtoms start choice) ∧
      ∀ rounds state, state.store = start → ∃ bindings,
        Returns (runStmt rounds args statement) state .proceed
          { state with
            store := visited.foldl (fun store rows => derive ordinal plan clause id version rows store) start
            bindings := bindings } := by
  obtain ⟨_, query, isQuery, rfl⟩ := clauseCode_eq_some code
  obtain ⟨inner, constrained, scanned, isInner, isConstrained, isScanned, rfl⟩ :=
    clauseQuery_simple simple isFact isQuery
  have visits : Visits (runOp args scanned) [] 0 (SameTables version clause.positiveAtoms start) _ _ :=
    visits_scans (inner_simple simple apart shaped isInner isConstrained) simple.positive shaped.wide
      clause.positiveAtoms [] [] scanned rfl rfl (fun _ _ found => by simp at found) isScanned
  obtain ⟨visited, isVisited, runs⟩ := visits
  refine ⟨visited, fun choice => ?_, fun rounds state isStart => ?_⟩
  · rw [isVisited]
    simp [Chosen]
  · obtain ⟨bindings, ran, _⟩ := runs state (fun _ _ found => by simp at found)
      (fun _ _ _ => by rw [isStart])
    rw [visitAll_none, isStart] at ran
    refine ⟨bindings, ?_⟩
    rw [withText]
    split
    · exact ran
    · exact ran

end DatalogRam.Lowering
