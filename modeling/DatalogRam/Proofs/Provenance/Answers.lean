import DatalogRam.Proofs.Lowering.Optional
import DatalogRam.Proofs.Query.Derivation
import DatalogRam.Proofs.Query.Slots

/-!
# Explanations answer

The query that explains a rule goes through the same choices of rows as the rule's own query. It answers with the
first choice that fires, derives the wanted head and stays below the wanted level. So it has an answer as soon as
there is such a choice.
-/

namespace DatalogRam.Lowering

open Machine Ram

/-- Rows are wanted if they give the head's arguments the words that these have over the slots, and all have been
derived below the level that the last argument asks for. -/
structure Wanted (ordinal : String → Int64) (clause : Clause) (slots : Slots) (args : Row) (rows : List Row) :
    Prop where
  head : ∀ arg ∈ clause.head.args,
    arg.value ordinal (valuationOf clause.positiveAtoms rows) = arg.value ordinal (argumentOf slots args)
  low : ∀ level ∈ bodyLevelsOf clause.positiveAtoms rows, level < (args[slots.size]?).getD 0

/-- What an explanation answers for a choice of rows: the rows without the numbers of their rules, and the words
of the negated atoms. -/
def answerOf (ordinal : String → Int64) (clause : Clause) (rows : List Row) : Row :=
  ((clause.positiveAtoms.zip rows).map fun entry => entry.2.eraseIdx entry.1.arity).flatten ++
    (clause.negatedAtoms.map fun atom =>
      Argument.values ordinal (valuationOf clause.positiveAtoms rows) atom.args).flatten

open Classical in
/-- The answer for a choice of rows, if it is one that counts. -/
noncomputable def explain (ordinal : String → Int64) (plan : Plan) (clause : Clause) (slots : Slots) (args : Row)
    (store : Store) (rows : List Row) : Option Row :=
  if (∀ literal ∈ clause.body,
      Passes ordinal plan.auxiliary (valuationOf clause.positiveAtoms rows) store literal) ∧
      Wanted ordinal clause slots args rows then
    some (answerOf ordinal clause rows)
  else none

variable {ordinal : String → Int64} {plan : Plan} {clause : Clause} {slots : Slots} {args : Row} {start : Store}
variable {state : State} {sites : Sites} {valuation : Valuation} {rows : List Row} {atoms : List Atom}

/-! ## Conditions of an explanation -/

/-- What is wanted for an argument of the head is its word over the slots, unless it is a constant. -/
theorem returns_wanted {arg : Argument} {found : Option Expr} (isTerm : arg.isTerm = true)
    (slotted : ∀ name ∈ arg.variables, name ∈ slots.names) (long : slots.size ≤ args.length)
    (code : wantedCode ordinal slots arg = some found) :
    (∃ value, arg = .constant value ∧ found = none) ∨
      ∃ wanted, found = some wanted ∧
        Returns (evalExpr args wanted) state (arg.value ordinal (argumentOf slots args)) state := by
  cases arg with
  | constant value =>
      cases code
      exact .inl ⟨value, rfl, rfl⟩
  | var name =>
      obtain ⟨slot, isSlot, rfl⟩ := Option.map_eq_some_iff.1 code
      exact .inr ⟨_, rfl, returns_argument (argument_of_slot isSlot long)⟩
  | operator op terms =>
      obtain ⟨expr, redirected, redirects⟩ := @exists_redirects ordinal slots _ isTerm slotted
      simp only [wantedCode, aggregates_of_isTerm isTerm, redirects.redirectedCode_eq] at code
      cases code
      exact .inr ⟨_, rfl, redirects.returns args state long⟩
  | unnamed | external | aggregate | record | counter => cases isTerm

/-- An argument of the head is compared with what is wanted for it. -/
theorem checks_headArgument {frame : Frame} {arg : Argument} {found : Option Cond} (isTerm : arg.isTerm = true)
    (slotted : ∀ name ∈ arg.variables, name ∈ slots.names) (long : slots.size ≤ args.length)
    (reads : ∀ name, Reads frame.sites state.bindings valuation name)
    (code : matchHeadCode ordinal frame slots arg = some found) :
    Checks args state (arg.value ordinal valuation = arg.value ordinal (argumentOf slots args)) found := by
  obtain ⟨wanted, isWanted, compared⟩ := Option.bind_eq_some_iff.1 code
  rcases @returns_wanted ordinal slots args state arg wanted isTerm slotted long isWanted with
    ⟨value, rfl, rfl⟩ | ⟨wanted, rfl, returns⟩
  · cases compared
    rfl
  · obtain ⟨value, isValue, rfl⟩ := Option.map_eq_some_iff.1 compared
    have here := @returns_value ordinal frame.sites valuation state args arg value isTerm isValue fun name _ => reads name
    exact (decides_compare here returns).congr decide_eq_true_iff

theorem decides_levels (strategy : plan.strategy = .provenance) (bound : Bound state.bindings rows)
    (long : ∀ (position : Nat) (atom : Atom), atoms[position]? = some atom →
      ∃ row : Row, rows[position]? = some row ∧ row.length = atom.arity + 2)
    (inArgs : slots.size < args.length) :
    (∀ condition ∈ levelConditionCodes plan atoms slots, Decides args state condition (Holds args state condition)) ∧
      ((∀ condition ∈ levelConditionCodes plan atoms slots, Holds args state condition) ↔
        ∀ level ∈ bodyLevelsOf atoms rows, level < (args[slots.size]?).getD 0) := by
  have limit : Returns (evalExpr args (.argument slots.size)) state ((args[slots.size]?).getD 0) state := by
    refine returns_argument ?_
    rw [List.getElem?_eq_getElem inArgs, Option.getD_some]
  have each : ∀ entry ∈ atoms.zipIdx,
      Decides args state (.compare .lt (.element entry.2 (entry.1.arity + 1)) (.argument slots.size))
        (((rows[entry.2]?).bind fun row => row[entry.1.arity + 1]?).getD 0 < (args[slots.size]?).getD 0) := by
    intro entry member
    obtain ⟨row, isRow, length⟩ := long entry.2 entry.1 (List.mem_zipIdx_iff_getElem?.1 member)
    have inRow := List.getElem?_eq_getElem (show entry.1.arity + 1 < row.length by omega)
    rw [isRow, Option.bind_some, inRow]
    have level : Returns (evalExpr args (.element entry.2 (entry.1.arity + 1))) state _ state :=
      Returns.elementOf (bound entry.2 row isRow) inRow
    exact (decides_compare level limit).congr (by simp [Comparison.holds])
  rw [levelConditionCodes, strategy]
  simp only [List.forall_mem_map, bodyLevelsOf]
  refine ⟨fun entry member => (each entry member).holds.1, forall₂_congr fun entry member => ?_⟩
  exact (each entry member).holds.2

/-! ## Answers -/

theorem returns_flatten {α : Type} {elements : List α} {code : α → List Expr} {values : α → List Int64}
    (each : ∀ element ∈ elements, Returns (evalExprs args (code element)) state (values element) state) :
    Returns (evalExprs args (elements.map code).flatten) state (elements.map values).flatten state := by
  induction elements with
  | nil => exact Returns.pure _ _
  | cons element rest ih =>
      rw [List.map_cons, List.map_cons, List.flatten_cons, List.flatten_cons]
      exact returns_append (each element List.mem_cons_self)
        (ih fun other member => each other (List.mem_cons_of_mem _ member))

/-- The reported columns are those of the row without the number of its rule. -/
theorem returns_reported (strategy : plan.strategy = .provenance) {atom : Atom} {tuple : Nat} {row : Row}
    (bound : state.bindings.lookup tuple = some row) (length : row.length = atom.arity + 2) :
    Returns (evalExprs args ((reportedColumns plan atom).map fun column => .element tuple column)) state
      (row.eraseIdx atom.arity) state := by
  have inRow : ∀ column ∈ reportedColumns plan atom, row[column]? = some ((row[column]?).getD 0) := by
    intro column member
    have within : column < row.length := by
      rw [reportedColumns, strategy, List.mem_append, List.mem_range, List.mem_singleton] at member
      omega
    rw [List.getElem?_eq_getElem within, Option.getD_some]
  have values : (reportedColumns plan atom).map (fun column => (row[column]?).getD 0) = row.eraseIdx atom.arity := by
    rw [reportedColumns, strategy]
    refine List.ext_getElem (by simp [length, List.length_eraseIdx]) fun column first second => ?_
    rw [List.length_map, List.length_append, List.length_range, List.length_singleton] at first
    rw [List.getElem_map, List.getElem_eraseIdx, List.getElem_append]
    split
    · next before =>
        rw [List.length_range] at before
        rw [List.getElem_range, dif_pos before, List.getElem?_eq_getElem (by omega), Option.getD_some]
    · next behind =>
        rw [List.length_range] at behind
        obtain rfl : column = atom.arity := by omega
        rw [List.getElem_singleton, dif_neg (Nat.lt_irrefl _), List.getElem?_eq_getElem (by omega),
          Option.getD_some]
  rw [← values]
  exact returns_map fun column member => Returns.elementOf bound (inRow column member)

theorem map_zipIdx_eq_map_zip {values : Atom → Row → Row} :
    ∀ {atoms : List Atom} {rows more : List Row}, rows.length = atoms.length →
      ((atoms.zipIdx more.length).map fun entry => values entry.1 (((more ++ rows)[entry.2]?).getD [])) =
        (atoms.zip rows).map fun entry => values entry.1 entry.2
  | [], [], _, _ => rfl
  | atom :: atoms, row :: rows, more, length => by
      have rest : ((atoms.zipIdx (more ++ [row]).length).map fun entry =>
          values entry.1 ((((more ++ [row]) ++ rows)[entry.2]?).getD [])) = _ :=
        map_zipIdx_eq_map_zip (Nat.succ.inj length)
      rw [List.length_append, List.length_singleton, List.append_assoc, List.singleton_append] at rest
      rw [List.zipIdx_cons, List.map_cons, rest, List.zip_cons_cons, List.map_cons,
        List.getElem?_append_right (Nat.le_refl _), Nat.sub_self, List.getElem?_cons_zero, Option.getD_some]

theorem returns_rows (strategy : plan.strategy = .provenance) (bound : Bound state.bindings rows)
    (same : rows.length = atoms.length)
    (long : ∀ (position : Nat) (atom : Atom), atoms[position]? = some atom →
      ∃ row : Row, rows[position]? = some row ∧ row.length = atom.arity + 2) :
    Returns (evalExprs args (reportedCodes plan atoms).flatten) state
      ((atoms.zip rows).map fun entry => entry.2.eraseIdx entry.1.arity).flatten state := by
  have values := @map_zipIdx_eq_map_zip (fun atom row => row.eraseIdx atom.arity) atoms rows [] same
  rw [List.length_nil, List.nil_append] at values
  rw [← values, reportedCodes]
  refine returns_flatten fun entry member => ?_
  obtain ⟨row, isRow, length⟩ := long entry.2 entry.1 (List.mem_zipIdx_iff_getElem?.1 member)
  rw [isRow, Option.getD_some]
  exact returns_reported strategy (bound entry.2 row isRow) length

theorem returns_negated {negated : List (List Expr)} (terms : ∀ atom ∈ atoms, ∀ arg ∈ atom.args, arg.isTerm = true)
    (reads : ∀ name, Reads sites state.bindings valuation name)
    (codes : (atoms.mapM fun atom => valueCodes ordinal sites atom.args) = some negated) :
    Returns (evalExprs args negated.flatten) state
      (atoms.map fun atom => Argument.values ordinal valuation atom.args).flatten state := by
  induction atoms generalizing negated with
  | nil =>
      cases codes
      exact Returns.pure _ _
  | cons atom rest ih =>
      obtain ⟨first, others, isFirst, areOthers, rfl⟩ := mapM_cons_eq_some codes
      rw [List.flatten_cons, List.map_cons, List.flatten_cons]
      refine returns_append ?_ (ih (fun other member => terms other (List.mem_cons_of_mem _ member)) areOthers)
      exact returns_values (Argument.areTerms_iff.2 (terms atom List.mem_cons_self)) isFirst
        fun name _ => reads name

/-! ## The query of an explanation -/

/-- An answer is given for the first choice that counts. -/
theorem visitAll_explain (visited : List (List Row)) (store : Store) :
    visitAll (fun rows store => (explain ordinal plan clause slots args store rows, store)) visited store =
      (visited.findSome? (explain ordinal plan clause slots args store), store) := by
  induction visited with
  | nil => rfl
  | cons rows rest ih =>
      rw [visitAll, List.findSome?_cons]
      cases explain ordinal plan clause slots args store rows with
      | none => exact ih
      | some answer => rfl

/-- The query that explains a simple rule consists of scans, constraints and an answer. -/
theorem explanationCode_simple {statement : Stmt} (simple : clause.Simple)
    (code : explanationCode ordinal plan clause slots = some statement) :
    ∃ inner constrained scanned,
      answerCode ordinal plan clause (simpleFrame clause) slots = some inner ∧
      constrainedCode ordinal plan (atomSites clause.positiveAtoms) clause.body inner = some constrained ∧
      clause.positiveAtoms.zipIdx.foldrM
        (fun entry operation =>
          scanCode ordinal .complete (atomSites clause.positiveAtoms) entry.1 entry.2 operation) constrained =
        some scanned ∧
      statement = .query scanned := by
  obtain ⟨_, _, code⟩ := Option.bind_eq_some_iff.1 code
  exact ruleCode_simple simple code

/-- The conditions on the head and on the levels decide together whether rows are wanted. -/
theorem decides_wanted {conditions : List Cond} (strategy : plan.strategy = .provenance)
    (areTerms : ∀ arg ∈ clause.head.args, arg.isTerm = true)
    (slotted : ∀ arg ∈ clause.head.args, ∀ name ∈ arg.variables, name ∈ slots.names) (count : args.length = slots.size + 1)
    (bound : Bound state.bindings rows)
    (long : ∀ (position : Nat) (atom : Atom), clause.positiveAtoms[position]? = some atom →
      ∃ row : Row, rows[position]? = some row ∧ row.length = atom.arity + 2)
    (reads : ∀ name, Reads (atomSites clause.positiveAtoms) state.bindings
      (valuationOf clause.positiveAtoms rows) name)
    (areHead : clause.head.args.filterMapM (matchHeadCode ordinal (simpleFrame clause) slots) = some conditions) :
    Decides args state (allOf (conditions ++ levelConditionCodes plan clause.positiveAtoms slots))
      (Wanted ordinal clause slots args rows) := by
  have enough : slots.size ≤ args.length := by omega
  have onHead := decides_filterMapM (fun arg member found code =>
    checks_headArgument (areTerms arg member) (slotted arg member) enough reads code) areHead
  have onLevels := @decides_levels plan slots args state rows clause.positiveAtoms strategy bound long (by omega)
  have each : ∀ condition ∈ conditions ++ levelConditionCodes plan clause.positiveAtoms slots,
      Decides args state condition (Holds args state condition) :=
    fun condition member => (List.mem_append.1 member).elim (onHead.1 condition) (onLevels.1 condition)
  refine (Decides.allOf each).congr ?_
  rw [List.forall_mem_append, onHead.2, onLevels.2]
  exact ⟨fun both => ⟨both.1, both.2⟩, fun wanted => ⟨wanted.head, wanted.low⟩⟩

section Explanation

variable (simple : clause.Simple)
variable (slotted : ∀ arg ∈ clause.head.args, ∀ name ∈ arg.variables, name ∈ slots.names)
variable (negatedTerms : ∀ atom ∈ clause.negatedAtoms, ∀ arg ∈ atom.args, arg.isTerm = true)
variable (strategy : plan.strategy = .provenance)
variable (shaped : Shaped .complete plan.auxiliary clause.positiveAtoms start)
variable (count : args.length = slots.size + 1)

include simple slotted negatedTerms strategy shaped count

theorem inner_explanation {inner constrained : Op}
    (isInner : answerCode ordinal plan clause (simpleFrame clause) slots = some inner)
    (isConstrained : constrainedCode ordinal plan (atomSites clause.positiveAtoms) clause.body inner =
      some constrained) :
    Inner args ordinal .complete clause.positiveAtoms start (SameTables .complete clause.positiveAtoms start)
      constrained fun rows store => (explain ordinal plan clause slots args store rows, store) where
  tables := fun _ same => same
  keeps := fun rows store same => same
  returns := by
    intro rows state length selected bound same
    have long : ∀ (position : Nat) (atom : Atom), clause.positiveAtoms[position]? = some atom →
        ∃ row : Row, rows[position]? = some row ∧ row.length = atom.arity + 2 :=
      auxiliary_of_provenance strategy ▸ Selected.exists_row shaped length selected
    have reads := Selected.reads shaped length selected bound
    obtain ⟨negated, headConditions, areNegated, areHead, rfl⟩ := answerCode_eq_some isInner
    have answered : Returns (runOp args (.answer ((reportedCodes plan clause.positiveAtoms).flatten ++
        negated.flatten))) state (.answer (answerOf ordinal clause rows)) state := by
      have values := returns_append (@returns_rows plan args state rows clause.positiveAtoms strategy bound length long)
        (returns_negated negatedTerms reads areNegated)
      rw [runOp]
      exact values.bind (Returns.pure _ _)
    have decides := decides_wanted strategy simple.head slotted count bound long reads areHead
    apply Runs.of_returns
    refine returns_constrained simple (List.Subset.refl _) reads isConstrained (fun passes => ?_) fun fails => ?_
    · refine returns_guardedBy decides (fun wanted => ?_) fun unwanted => ?_
      · rw [explain, if_pos ⟨passes, wanted⟩]
        exact answered
      · rw [explain, if_neg fun both => unwanted both.2]
        exact ⟨rfl, rfl⟩
    · rw [explain, if_neg fun both => fails both.1]
      exact ⟨rfl, rfl⟩

/-- The query answers for some rows that fire and are wanted, or comes to its end if there are none. -/
theorem returns_answer {statement : Stmt} (code : explanationCode ordinal plan clause slots = some statement) :
    ∃ result : Option Row,
      (∀ rounds state, state.store = start → ∃ bindings,
        Returns (runStmt rounds args statement) state (flowOf result) { state with bindings := bindings }) ∧
      match result with
      | some answer => ∃ chosen, Fires ordinal plan clause .complete start chosen ∧
          Wanted ordinal clause slots args chosen ∧ answer = answerOf ordinal clause chosen
      | none => ∀ rows, Fires ordinal plan clause .complete start rows → ¬Wanted ordinal clause slots args rows := by
  obtain ⟨inner, constrained, scanned, isInner, isConstrained, isScanned, rfl⟩ := explanationCode_simple simple code
  have visits : Visits (runOp args scanned) [] 0 (SameTables .complete clause.positiveAtoms start) _ _ :=
    visits_scans (inner_explanation simple slotted negatedTerms strategy shaped count isInner isConstrained)
      simple.positive shaped.wide clause.positiveAtoms [] [] scanned rfl rfl (fun _ _ found => by simp at found)
      isScanned
  obtain ⟨visited, isVisited, runs⟩ := visits
  refine ⟨visited.findSome? (explain ordinal plan clause slots args start), fun rounds state isStart => ?_, ?_⟩
  · obtain ⟨bindings, ran, _⟩ := runs state (fun _ _ found => by simp at found) (fun _ _ _ => by rw [isStart])
    rw [visitAll_explain, isStart] at ran
    refine ⟨bindings, ?_⟩
    rw [runStmt, ← isStart] at *
    exact ran
  · cases isAnswer : visited.findSome? (explain ordinal plan clause slots args start) with
    | some answer =>
        obtain ⟨chosen, isChosen, explained⟩ := List.exists_of_findSome?_eq_some isAnswer
        rw [explain] at explained
        split at explained
        · next counts =>
            cases explained
            obtain ⟨⟨length, selected⟩, _⟩ := (isVisited chosen).1 isChosen
            exact ⟨chosen, ⟨length, selected, counts.1⟩, counts.2, rfl⟩
        · cases explained
    | none =>
        intro rows fires wanted
        have isThere : rows ∈ visited := (isVisited rows).2 ⟨⟨fires.length, fires.selected⟩, List.nil_prefix⟩
        have unexplained := List.findSome?_eq_none_iff.1 isAnswer rows isThere
        rw [explain, if_pos ⟨fires.passes, wanted⟩] at unexplained
        cases unexplained

/-- If rows fire and are wanted, the query answers for some rows that do and are. -/
theorem returns_explanation {statement : Stmt}
    (code : explanationCode ordinal plan clause slots = some statement)
    (fires : Fires ordinal plan clause .complete start rows) (wanted : Wanted ordinal clause slots args rows) :
    ∃ chosen, Fires ordinal plan clause .complete start chosen ∧ Wanted ordinal clause slots args chosen ∧
      ∀ rounds state, state.store = start → ∃ bindings,
        Returns (runStmt rounds args statement) state (.answer (answerOf ordinal clause chosen))
          { state with bindings := bindings } := by
  obtain ⟨result, answers, means⟩ := returns_answer simple slotted negatedTerms strategy shaped count code
  cases result with
  | none => exact absurd wanted (means rows fires)
  | some answer =>
      obtain ⟨chosen, alsoFires, alsoWanted, rfl⟩ := means
      exact ⟨chosen, alsoFires, alsoWanted, answers⟩

end Explanation

/-- Wanted rows all derive the same head. -/
theorem Wanted.headOf_eq {chosen : List Row} (wanted : Wanted ordinal clause slots args rows)
    (alsoWanted : Wanted ordinal clause slots args chosen) : headOf ordinal clause chosen = headOf ordinal clause rows := by
  rw [headOf, headOf, Clause.headRow, Clause.headRow, Argument.values_eq_map, Argument.values_eq_map]
  exact List.map_congr_left fun arg member => (alsoWanted.head arg member).trans (wanted.head arg member).symm

/-- In an explanation that has code, the variables of a head that computes nothing have slots. -/
theorem slotted_of_flat {statement : Stmt} (flat : ∀ arg ∈ clause.head.args, arg.isFlat = true)
    (code : explanationCode ordinal plan clause slots = some statement) :
    ∀ arg ∈ clause.head.args, ∀ name ∈ arg.variables, name ∈ slots.names := by
  obtain ⟨_, _, code⟩ := Option.bind_eq_some_iff.1 code
  obtain ⟨frame, inner, _, _, _, _, isInner, _, _, _, _⟩ := ruleCode_eq_some code
  obtain ⟨_, conditions, _, areHead, _⟩ := answerCode_eq_some isInner
  intro arg member name isVariable
  have isFlat := flat arg member
  obtain ⟨found, isFound⟩ := exists_of_filterMapM areHead arg member
  obtain ⟨wanted, isWanted, _⟩ := Option.bind_eq_some_iff.1 isFound
  cases arg with
  | var other =>
      obtain rfl : name = other := List.mem_singleton.1 isVariable
      obtain ⟨slot, isSlot, _⟩ := Option.map_eq_some_iff.1 isWanted
      exact List.isSome_idxOf?.1 (Option.isSome_of_eq_some isSlot)
  | constant value => cases isVariable
  | _ => cases isFlat

end DatalogRam.Lowering
