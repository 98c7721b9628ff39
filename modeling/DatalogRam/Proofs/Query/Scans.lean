import DatalogRam.Proofs.Query.Values

/-!
# Running nested scans

The scans of a clause bind one row for each positive body atom. `Selected` says which choices of rows agree with
the atoms, and `visits_scans` that what is inside the scans runs once for each of these choices, in some order,
until it answers.
-/

namespace DatalogRam.Lowering

open Machine Ram

variable {ordinal : String → Int64} {version : Version} {atoms : List Atom} {args : Row}

/-- The word of each variable in the rows that are bound to the atoms. -/
def valuationOf (atoms : List Atom) (rows : List Row) : Valuation := fun name =>
  (((atomSites atoms).definition? name).bind fun site =>
    (rows[site.tuple]?).bind fun row => row[site.column]?).getD 0

/-- Each row is in the table of its atom and has the words of the atom's arguments. -/
def Selected (ordinal : String → Int64) (version : Version) (atoms : List Atom) (store : Store)
    (rows : List Row) : Prop :=
  ∀ position row, rows[position]? = some row →
    ∃ atom, atoms[position]? = some atom ∧ row ∈ store.rows (version.source position atom.relation) ∧
      Argument.Match ordinal (valuationOf atoms rows) atom.args (row.take atom.arity)

/-- The rows are bound to their positions. -/
def Bound (bindings : Bindings) (rows : List Row) : Prop :=
  ∀ position row, rows[position]? = some row → bindings.lookup position = some row

/-- All rows of the tables of the atoms are at least as long as the atoms. -/
def Wide (version : Version) (atoms : List Atom) (store : Store) : Prop :=
  ∀ position atom, atoms[position]? = some atom →
    ∀ row ∈ store.rows (version.source position atom.relation), atom.arity ≤ row.length

/-- Two stores have the same rows in the tables of the atoms. -/
def SameTables (version : Version) (atoms : List Atom) (store other : Store) : Prop :=
  ∀ position atom, atoms[position]? = some atom →
    other.rows (version.source position atom.relation) = store.rows (version.source position atom.relation)

/-! ## Matching -/

/-- Of direct arguments only variables depend on the valuation. -/
theorem match_congr {valuation other : Valuation} {terms : List Argument} {row : Row}
    (direct : ∀ arg ∈ terms, arg.isDirect = true)
    (same : ∀ name, .var name ∈ terms → valuation name = other name) :
    Argument.Match ordinal valuation terms row ↔ Argument.Match ordinal other terms row := by
  refine Argument.match_congr fun name member => ?_
  obtain ⟨arg, isArg, inArg⟩ := Argument.mem_ownVariablesOfAll.1 member
  rcases Argument.isDirect_cases (direct arg isArg) with ⟨other, rfl⟩ | rfl | ⟨value, rfl⟩
  · cases List.mem_singleton.1 inArg
    exact same name isArg
  · cases inArg
  · cases inArg

/-- Rows of later atoms do not change the words of variables that are defined before. -/
theorem valuationOf_append {rows more : List Row} {name : String} {site : Site}
    (defined : (atomSites atoms).definition? name = some site) (before : site.tuple < rows.length) :
    valuationOf atoms (rows ++ more) name = valuationOf atoms rows name := by
  simp only [valuationOf, defined, Option.bind_some]
  rw [List.getElem?_append_left before]

theorem match_append {rows more : List Row} {position : Nat} {atom : Atom} {row : Row}
    (direct : ∀ atom ∈ atoms, ∀ arg ∈ atom.args, arg.isDirect = true)
    (atPosition : atoms[position]? = some atom) (before : position < rows.length) :
    Argument.Match ordinal (valuationOf atoms (rows ++ more)) atom.args row ↔
      Argument.Match ordinal (valuationOf atoms rows) atom.args row := by
  refine match_congr (direct atom (List.mem_of_getElem? atPosition)) fun name member => ?_
  obtain ⟨site, defined, early⟩ := definition_of_argument atPosition member
  exact valuationOf_append defined (by omega)

/-- Behind the rows of a choice there is only the last one. -/
theorem last_of_snoc {rows : List Row} {row other : Row} {position : Nat} (outside : rows.length ≤ position)
    (found : (rows ++ [row])[position]? = some other) : position = rows.length ∧ row = other := by
  rw [List.getElem?_append_right outside] at found
  obtain ⟨inside, same⟩ := List.getElem?_eq_some_iff.1 found
  rw [List.length_singleton] at inside
  exact ⟨by omega, by simpa [show position - rows.length = 0 by omega] using same⟩

/-- One more row is selected if it is in the table of the next atom and matches it. -/
theorem selected_snoc {store : Store} {rows : List Row} {row : Row} {atom : Atom}
    (direct : ∀ atom ∈ atoms, ∀ arg ∈ atom.args, arg.isDirect = true)
    (next : atoms[rows.length]? = some atom) :
    Selected ordinal version atoms store (rows ++ [row]) ↔
      Selected ordinal version atoms store rows ∧
        row ∈ store.rows (version.source rows.length atom.relation) ∧
          Argument.Match ordinal (valuationOf atoms (rows ++ [row])) atom.args (row.take atom.arity) := by
  constructor
  · intro selected
    refine ⟨fun position other found => ?_, ?_⟩
    · obtain ⟨inside, _⟩ := List.getElem?_eq_some_iff.1 found
      obtain ⟨itsAtom, atPosition, member, isMatch⟩ :=
        selected position other (by rw [List.getElem?_append_left inside, found])
      exact ⟨itsAtom, atPosition, member, (match_append direct atPosition inside).1 isMatch⟩
    · obtain ⟨itsAtom, atPosition, member, isMatch⟩ := selected rows.length row (by simp)
      rw [next, Option.some.injEq] at atPosition
      subst atPosition
      exact ⟨member, isMatch⟩
  · rintro ⟨selected, member, isMatch⟩ position other found
    rcases Nat.lt_or_ge position rows.length with inside | outside
    · rw [List.getElem?_append_left inside] at found
      obtain ⟨itsAtom, atPosition, isMember, itsMatch⟩ := selected position other found
      exact ⟨itsAtom, atPosition, isMember, (match_append direct atPosition inside).2 itsMatch⟩
    · obtain ⟨rfl, rfl⟩ := last_of_snoc outside found
      exact ⟨atom, next, member, isMatch⟩

theorem selected_of_append {store : Store} {rows more : List Row}
    (direct : ∀ atom ∈ atoms, ∀ arg ∈ atom.args, arg.isDirect = true)
    (selected : Selected ordinal version atoms store (rows ++ more)) :
    Selected ordinal version atoms store rows := by
  intro position row found
  obtain ⟨inside, _⟩ := List.getElem?_eq_some_iff.1 found
  obtain ⟨atom, atPosition, member, isMatch⟩ :=
    selected position row (by rw [List.getElem?_append_left inside, found])
  exact ⟨atom, atPosition, member, (match_append direct atPosition inside).1 isMatch⟩

/-- Selected rows and one more from the table of the next atom are all long enough. -/
theorem arity_le_length_of_snoc {store : Store} {rows : List Row} {row : Row} {atom : Atom}
    (wide : Wide version atoms store) (selected : Selected ordinal version atoms store rows)
    (next : atoms[rows.length]? = some atom)
    (member : row ∈ store.rows (version.source rows.length atom.relation)) :
    ∀ (position : Nat) (other : Row) (itsAtom : Atom), (rows ++ [row])[position]? = some other →
      atoms[position]? = some itsAtom → itsAtom.arity ≤ other.length := by
  intro position other itsAtom found atPosition
  rcases Nat.lt_or_ge position rows.length with inside | outside
  · rw [List.getElem?_append_left inside] at found
    obtain ⟨same, isSame, isMember, _⟩ := selected position other found
    rw [atPosition, Option.some.injEq] at isSame
    subst isSame
    exact wide position itsAtom atPosition other isMember
  · obtain ⟨rfl, rfl⟩ := last_of_snoc outside found
    rw [next, Option.some.injEq] at atPosition
    subst atPosition
    exact wide rows.length atom next row member

/-! ## The conditions of one scan -/

/-- Bound rows that are long enough have the words of all variables defined among them. -/
theorem reads_of_bound {bindings : Bindings} {rows : List Row} {name : String}
    (bound : Bound bindings rows)
    (wide : ∀ (position : Nat) (row : Row) (atom : Atom), rows[position]? = some row →
      atoms[position]? = some atom → atom.arity ≤ row.length)
    (early : ∀ site, (atomSites atoms).definition? name = some site → site.tuple < rows.length) :
    Reads (atomSites atoms) bindings (valuationOf atoms rows) name := by
  intro site defined
  obtain ⟨atom, atTuple, argument⟩ := argument_of_definition defined
  obtain ⟨row, isRow⟩ : ∃ row, rows[site.tuple]? = some row :=
    ⟨_, List.getElem?_eq_getElem (early site defined)⟩
  have long := wide site.tuple row atom isRow atTuple
  obtain ⟨inside, _⟩ := List.getElem?_eq_some_iff.1 argument
  obtain ⟨word, isWord⟩ : ∃ word, row[site.column]? = some word :=
    ⟨_, List.getElem?_eq_getElem (Nat.lt_of_lt_of_le inside long)⟩
  refine ⟨row, bound site.tuple row isRow, ?_⟩
  simp only [valuationOf, defined, isRow, isWord, Option.bind_some, Option.getD_some]

/-- The condition is tested without a fault or an effect, and it holds. -/
abbrev Holds (args : Row) (state : State) (condition : Cond) : Prop :=
  Returns (evalCond args condition) state true state

theorem Decides.holds {state : State} {condition : Cond} {fact : Prop}
    (decides : Decides args state condition fact) :
    Decides args state condition (Holds args state condition) ∧ (Holds args state condition ↔ fact) := by
  obtain ⟨answer, returns, means⟩ := decides
  have same : Holds args state condition ↔ answer = true := by
    constructor
    · intro holds
      exact (returns.unique holds).1
    · rintro rfl
      exact returns
  exact ⟨⟨answer, returns, same.symm⟩, same.trans means⟩

/-- A condition decides a fact, or there is none because the fact holds. -/
def Checks (args : Row) (state : State) (fact : Prop) : Option Cond → Prop
  | none => fact
  | some condition => Decides args state condition fact

theorem Checks.congr {found : Option Cond} {fact other : Prop} (checks : Checks args state fact found)
    (same : fact ↔ other) : Checks args state other found := by
  cases found with
  | none => exact same.1 checks
  | some condition => exact Decides.congr checks same

/-- The conditions that some elements ask for hold together if the elements' facts do. -/
theorem decides_filterMapM {α : Type} {state : State} {fact : α → Prop} {code : α → Option (Option Cond)}
    {elements : List α} {conditions : List Cond}
    (checks : ∀ element ∈ elements, ∀ found, code element = some found → Checks args state (fact element) found)
    (codes : elements.filterMapM code = some conditions) :
    (∀ condition ∈ conditions, Decides args state condition (Holds args state condition)) ∧
      ((∀ condition ∈ conditions, Holds args state condition) ↔ ∀ element ∈ elements, fact element) := by
  induction elements generalizing conditions with
  | nil =>
      cases codes
      simp
  | cons element rest ih =>
      rw [List.filterMapM_cons] at codes
      obtain ⟨found, isFound, codes⟩ := Option.bind_eq_some_iff.1 codes
      have first := checks element List.mem_cons_self found isFound
      have later {others : List Cond} := @ih others fun other member => checks other (List.mem_cons_of_mem _ member)
      rw [List.forall_mem_cons]
      cases found with
      | none =>
          obtain ⟨decides, means⟩ := later codes
          exact ⟨decides, means.trans (iff_and_self.2 fun _ => first)⟩
      | some condition =>
          obtain ⟨others, areOthers, same⟩ := Option.bind_eq_some_iff.1 codes
          cases same
          obtain ⟨decides, means⟩ := later areOthers
          obtain ⟨decidesFirst, meansFirst⟩ := Decides.holds first
          refine ⟨List.forall_mem_cons.2 ⟨decidesFirst, decides⟩, ?_⟩
          rw [List.forall_mem_cons, meansFirst, means]

section Matching

variable {sites : Sites} {valuation : Valuation} {state : State} {tuple column : Nat} {row : Row} {term : Argument}
variable {word : Int64}

/-- What is left of a row from a column on begins with the word at the column. -/
theorem exists_word (inside : column < row.length) :
    ∃ word, row[column]? = some word ∧ row.drop column = word :: row.drop (column + 1) :=
  ⟨row[column], List.getElem?_eq_getElem inside, List.drop_eq_getElem_cons inside⟩

/-- An argument that asks for nothing is a wildcard or defines its variable. -/
theorem matches_of_isFree (bound : state.bindings.lookup tuple = some row) (isWord : row[column]? = some word)
    (reads : ∀ name, term = .var name → Reads sites state.bindings valuation name)
    (free : isFree sites tuple column term = true) : term = .unnamed ∨ term.value ordinal valuation = word := by
  cases term with
  | unnamed => exact .inl rfl
  | var name =>
      obtain ⟨other, isBound, inRow⟩ := reads name rfl ⟨tuple, column⟩ (by simpa [isFree] using free)
      rw [bound, Option.some.injEq] at isBound
      subst isBound
      rw [isWord, Option.some.injEq] at inRow
      exact .inr inRow.symm
  | _ => cases free

/-- The comparison for an argument decides whether the word at its column is the one of the argument. -/
theorem decides_argument {value : Expr} (bound : state.bindings.lookup tuple = some row)
    (isWord : row[column]? = some word) (reads : ∀ name, term = .var name → Reads sites state.bindings valuation name)
    (isDirect : term.isDirect = true) (isTerm : term.isTerm = true)
    (isValue : valueCode ordinal sites term = some value) :
    Decides args state (.compare .eq (.element tuple column) value) (term.value ordinal valuation = word) := by
  have ran : Returns (evalExpr args value) state (term.value ordinal valuation) state := by
    refine returns_value isTerm isValue fun name member => reads name ?_
    rcases Argument.isDirect_cases isDirect with ⟨other, rfl⟩ | rfl | ⟨constant, rfl⟩
    · rw [Argument.variables, List.mem_singleton] at member
      rw [member]
    · cases member
    · cases member
  have here : Returns (evalExpr args (.element tuple column)) state word state := Returns.elementOf bound isWord
  refine (decides_compare here ran).congr ?_
  simp [Comparison.holds, eq_comm]

/-- What an argument asks for, if anything, checks that the bound row has its word. -/
theorem checks_matchBody {found : Option Cond} (bound : state.bindings.lookup tuple = some row)
    (inside : column < row.length) (isDirect : term.isDirect = true)
    (reads : ∀ name, term = .var name → Reads sites state.bindings valuation name)
    (code : matchBodyCode ordinal sites tuple (term, column) = some found) :
    Checks args state (term = .unnamed ∨ row[column]? = some (term.value ordinal valuation)) found := by
  obtain ⟨word, isWord, _⟩ := exists_word inside
  rw [isWord, Option.some.injEq, @eq_comm _ word]
  rw [matchBodyCode] at code
  split at code
  · next free =>
      cases code
      exact matches_of_isFree bound isWord reads free
  · next asks =>
      obtain ⟨value, isValue, rfl⟩ := Option.map_eq_some_iff.1 code
      have named : term ≠ .unnamed := by
        rintro rfl
        exact asks rfl
      have isTerm : term.isTerm = true := (Argument.isDirect_plain isDirect).resolve_left named
      have compared : Decides args state _ (term.value ordinal valuation = word) :=
        decides_argument bound isWord reads isDirect isTerm isValue
      exact compared.congr (or_iff_right named).symm

/-- A row matches from a column on if it has the words of the arguments at their columns. -/
theorem match_drop_iff {terms : List Argument} (long : column + terms.length ≤ row.length) :
    Argument.Match ordinal valuation terms ((row.drop column).take terms.length) ↔
      ∀ entry ∈ terms.zipIdx column,
        entry.1 = .unnamed ∨ row[entry.2]? = some (entry.1.value ordinal valuation) := by
  induction terms generalizing column with
  | nil => simp [Argument.Match]
  | cons term terms ih =>
      rw [List.length_cons] at long
      obtain ⟨word, isWord, dropped⟩ := exists_word (show column < row.length by omega)
      rw [List.zipIdx_cons, List.forall_mem_cons, ← ih (by omega), dropped, List.length_cons, List.take_succ_cons,
        Argument.Match, isWord, Option.some.injEq, @eq_comm _ word]

end Matching

/-- The conditions of a scan decide whether the bound row matches the atom. -/
theorem decides_scan {sites : Sites} {valuation : Valuation} {state : State} {tuple : Nat} {row : Row}
    {atom : Atom} {conditions : List Cond} (bound : state.bindings.lookup tuple = some row)
    (direct : ∀ arg ∈ atom.args, arg.isDirect = true)
    (reads : ∀ name, .var name ∈ atom.args → Reads sites state.bindings valuation name)
    (long : atom.arity ≤ row.length)
    (code : atom.args.zipIdx.filterMapM (matchBodyCode ordinal sites tuple) = some conditions) :
    Decides args state (allOf conditions)
      (Argument.Match ordinal valuation atom.args (row.take atom.arity)) := by
  have checks : ∀ entry ∈ atom.args.zipIdx, ∀ found, matchBodyCode ordinal sites tuple entry = some found →
      Checks args state (entry.1 = .unnamed ∨ row[entry.2]? = some (entry.1.value ordinal valuation)) found := by
    intro entry member found isCode
    have isArg := List.fst_mem_of_mem_zipIdx member
    exact checks_matchBody bound (Nat.lt_of_lt_of_le (List.snd_lt_of_mem_zipIdx member) long) (direct _ isArg)
      (fun name same => reads name (same ▸ isArg)) isCode
  obtain ⟨decides, means⟩ := decides_filterMapM checks code
  have isMatch := @match_drop_iff ordinal valuation 0 row atom.args (by rwa [Nat.zero_add])
  rw [List.drop_zero] at isMatch
  exact (Decides.allOf decides).congr (means.trans isMatch.symm)

theorem returns_guardedBy {state final : State} {conditions : List Cond} {operation : Op} {fact : Prop}
    {flow : Flow} (decides : Decides args state (allOf conditions) fact)
    (returns : fact → Returns (runOp args operation) state flow final)
    (otherwise : ¬fact → flow = .proceed ∧ final = state) :
    Returns (runOp args (guardedBy conditions operation)) state flow final := by
  cases conditions with
  | nil =>
      refine returns (decides.holds.2.1 ?_)
      exact Returns.pure true state
  | cons first rest => exact returns_filter decides returns otherwise

/-! ## Nested scans -/

/-- Do something to a store for one choice of rows after another, until one of them is answered. -/
def visitAll (effect : List Row → Store → Option Row × Store) : List (List Row) → Store → Option Row × Store
  | [], store => (none, store)
  | rows :: rest, store =>
      match effect rows store with
      | (some answer, after) => (some answer, after)
      | (none, after) => visitAll effect rest after

theorem visitAll_append (effect : List Row → Store → Option Row × Store) (first second : List (List Row))
    (store : Store) :
    visitAll effect (first ++ second) store =
      match visitAll effect first store with
      | (some answer, after) => (some answer, after)
      | (none, after) => visitAll effect second after := by
  induction first generalizing store with
  | nil => rfl
  | cons rows rest ih =>
      rw [List.cons_append, visitAll, visitAll]
      cases effect rows store with
      | mk answer after =>
          cases answer with
          | none => exact ih after
          | some answer => rfl

def flowOf : Option Row → Flow
  | none => .proceed
  | some answer => .answer answer

/-- A run that changes only the store and the rows bound from some number on. -/
def Runs (code : Exec Flow) (number : Nat) (state : State) (result : Option Row × Store) : Prop :=
  ∃ bindings, Returns code state (flowOf result.1) { state with store := result.2, bindings := bindings } ∧
    ∀ tuple < number, bindings.lookup tuple = state.bindings.lookup tuple

theorem Runs.of_returns {code : Exec Flow} {number : Nat} {state : State} {result : Option Row × Store}
    (returns : Returns code state (flowOf result.1) { state with store := result.2 }) : Runs code number state result :=
  ⟨state.bindings, returns, fun _ _ => rfl⟩

/-- What is inside the scans has an effect on the store for each choice of rows. It keeps what is known of the store,
and so leaves the tables of the atoms as they are. -/
structure Inner (args : Row) (ordinal : String → Int64) (version : Version) (atoms : List Atom) (start : Store)
    (known : Store → Prop) (inner : Op) (effect : List Row → Store → Option Row × Store) : Prop where
  tables : ∀ store, known store → SameTables version atoms start store
  returns : ∀ rows state, rows.length = atoms.length → Selected ordinal version atoms start rows →
    Bound state.bindings rows → known state.store →
      Runs (runOp args inner) rows.length state (effect rows state.store)
  keeps : ∀ rows store, known store → known (effect rows store).2

theorem Inner.visitAll_keeps {start : Store} {known : Store → Prop} {inner : Op}
    {effect : List Row → Store → Option Row × Store}
    (isInner : Inner args ordinal version atoms start known inner effect) (visited : List (List Row)) {store : Store}
    (isKnown : known store) : known (visitAll effect visited store).2 := by
  induction visited generalizing store with
  | nil => exact isKnown
  | cons rows rest ih =>
      have kept := isInner.keeps rows store isKnown
      rw [visitAll]
      cases ran : effect rows store with
      | mk answer after =>
          rw [ran] at kept
          cases answer with
          | none => exact ih kept
          | some answer => exact kept

theorem bound_snoc {bindings : Bindings} {rows : List Row} (bound : Bound bindings rows) (row : Row) :
    Bound (bindings.set rows.length row) (rows ++ [row]) := by
  intro position other found
  rw [Bindings.lookup_set]
  rcases Nat.lt_or_ge position rows.length with inside | outside
  · rw [if_neg (Nat.ne_of_lt inside)]
    rw [List.getElem?_append_left inside] at found
    exact bound position other found
  · obtain ⟨rfl, rfl⟩ := last_of_snoc outside found
    rw [if_pos rfl]

/-- Code visits the choices of rows with a property: it runs as if it did each of their effects in turn. -/
def Visits (code : Exec Flow) (rows : List Row) (number : Nat) (known : Store → Prop)
    (effect : List Row → Store → Option Row × Store) (good : List Row → Prop) : Prop :=
  ∃ visited, (∀ choice, choice ∈ visited ↔ good choice) ∧
    ∀ state, Bound state.bindings rows → known state.store →
      Runs code number state (visitAll effect visited state.store)

/-- Binding the rows of a table one after another visits the choices that go on with one of them. -/
theorem visits_forRows {body : Exec Flow} {rows : List Row} {known : Store → Prop}
    {effect : List Row → Store → Option Row × Store} {good : List Row → Prop} {table : List Row}
    (keeps : ∀ visited store, known store → known (visitAll effect visited store).2)
    (each : ∀ row ∈ table, Visits body (rows ++ [row]) (rows.length + 1) known effect
      fun choice => good choice ∧ rows ++ [row] <+: choice) :
    Visits (forRows rows.length body table) rows rows.length known effect
      fun choice => good choice ∧ ∃ row ∈ table, rows ++ [row] <+: choice := by
  induction table with
  | nil =>
      refine ⟨[], by simp, fun state _ _ => ⟨state.bindings, ?_, fun _ _ => rfl⟩⟩
      exact Returns.pure Flow.proceed state
  | cons row table ih =>
      obtain ⟨first, isFirst, runsFirst⟩ := each row List.mem_cons_self
      obtain ⟨second, isSecond, runsSecond⟩ := ih fun other member => each other (List.mem_cons_of_mem _ member)
      refine ⟨first ++ second, fun choice => ?_, fun state bound same => ?_⟩
      · rw [List.mem_append, isFirst, isSecond, ← and_or_left]
        refine and_congr_right fun _ => ?_
        simp only [List.mem_cons, exists_eq_or_imp]
      · rw [visitAll_append]
        have keptFirst := keeps first state.store same
        obtain ⟨bindings, ran, outside⟩ :=
          runsFirst { state with bindings := state.bindings.set rows.length row } (bound_snoc bound row) same
        have below (tuple : Nat) (low : tuple < rows.length) :
            bindings.lookup tuple = state.bindings.lookup tuple := by
          rw [outside tuple (by omega), Bindings.lookup_set, if_neg (Nat.ne_of_lt low)]
        rw [forRows]
        revert ran keptFirst
        cases visitAll effect first state.store with
        | mk answer after =>
            intro keptFirst ran
            cases answer with
            | some answer =>
                exact ⟨bindings, (Returns.bindRow _ row state).bind (ran.bind (Returns.pure _ _)), below⟩
            | none =>
                have stillBound : Bound bindings rows := by
                  intro tuple other found
                  obtain ⟨inside, _⟩ := List.getElem?_eq_some_iff.1 found
                  rw [below tuple inside]
                  exact bound tuple other found
                obtain ⟨bindings', ran', outside'⟩ :=
                  runsSecond { state with store := after, bindings := bindings } stillBound keptFirst
                refine ⟨bindings', (Returns.bindRow _ row state).bind (ran.bind ran'), fun tuple low => ?_⟩
                rw [outside' tuple low]
                exact below tuple low

theorem Visits.lower {code : Exec Flow} {rows : List Row} {number other : Nat} {known : Store → Prop}
    {effect : List Row → Store → Option Row × Store} {good : List Row → Prop}
    (visits : Visits code rows number known effect good) (below : other ≤ number) :
    Visits code rows other known effect good := by
  obtain ⟨visited, isVisited, runs⟩ := visits
  refine ⟨visited, isVisited, fun state bound same => ?_⟩
  obtain ⟨bindings, ran, outside⟩ := runs state bound same
  exact ⟨bindings, ran, fun tuple low => outside tuple (Nat.lt_of_lt_of_le low below)⟩

/-- Under conditions that decide a fact the same choices are visited, or none if the fact does not hold. -/
theorem Visits.guardedBy {operation : Op} {conditions : List Cond} {rows : List Row} {number : Nat}
    {known : Store → Prop} {effect : List Row → Store → Option Row × Store} {good : List Row → Prop} {fact : Prop}
    (decides : ∀ state, Bound state.bindings rows → Decides args state (allOf conditions) fact)
    (visits : fact → Visits (runOp args operation) rows number known effect good)
    (needs : ∀ choice, good choice → fact) :
    Visits (runOp args (guardedBy conditions operation)) rows number known effect good := by
  by_cases holds : fact
  · obtain ⟨visited, isVisited, runs⟩ := visits holds
    refine ⟨visited, isVisited, fun state bound same => ?_⟩
    obtain ⟨bindings, ran, outside⟩ := runs state bound same
    exact ⟨bindings, returns_guardedBy (decides state bound) (fun _ => ran) (absurd holds), outside⟩
  · refine ⟨[], fun choice => ?_, fun state bound same => ⟨state.bindings, ?_, fun _ _ => rfl⟩⟩
    · exact ⟨fun member => absurd member List.not_mem_nil, fun isGood => absurd (needs choice isGood) holds⟩
    · exact returns_guardedBy (decides state bound) (fun fact => absurd fact holds) fun _ => ⟨rfl, rfl⟩

/-- A scan visits what its operation visits for the rows of the table. -/
theorem Visits.scan {operation : Op} {rows : List Row} {start : Store} {known : Store → Prop}
    {effect : List Row → Store → Option Row × Store} {good : List Row → Prop} {position : Nat} {atom : Atom}
    (atPosition : atoms[position]? = some atom) (tables : ∀ store, known store → SameTables version atoms start store)
    (visits : Visits (forRows rows.length (runOp args operation)
      (start.rows (version.source position atom.relation)).toList) rows rows.length known effect good) :
    Visits (runOp args (.scan (version.source position atom.relation) rows.length operation)) rows rows.length known
      effect good := by
  obtain ⟨visited, isVisited, runs⟩ := visits
  refine ⟨visited, isVisited, fun state bound isKnown => ?_⟩
  obtain ⟨bindings, returns, outside⟩ := runs state bound isKnown
  rw [← tables state.store isKnown position atom atPosition] at returns
  exact ⟨bindings, (Returns.rowsOf _ state).bind returns, outside⟩

/-- A choice of rows is complete if it has a row for each atom, all of them selected. -/
def Chosen (ordinal : String → Int64) (version : Version) (atoms : List Atom) (store : Store)
    (choice : List Row) : Prop :=
  choice.length = atoms.length ∧ Selected ordinal version atoms store choice

section Choices

variable {start : Store} {rows : List Row} {atom : Atom}
variable (direct : ∀ atom ∈ atoms, ∀ arg ∈ atom.args, arg.isDirect = true)
variable (next : atoms[rows.length]? = some atom)

include direct next

/-- A choice that goes on with a row has the row in the table of the next atom, and the row matches the atom. -/
theorem Chosen.next_matches {choice : List Row} {row : Row} (chosen : Chosen ordinal version atoms start choice)
    (goesOn : rows ++ [row] <+: choice) :
    row ∈ start.rows (version.source rows.length atom.relation) ∧
      Argument.Match ordinal (valuationOf atoms (rows ++ [row])) atom.args (row.take atom.arity) := by
  obtain ⟨more, rfl⟩ := goesOn
  exact ((selected_snoc direct next).1 (selected_of_append direct chosen.2)).2

/-- A choice that begins with rows for some of the atoms goes on with a row for the next one. -/
theorem Chosen.goesOn_iff {choice : List Row} (chosen : Chosen ordinal version atoms start choice) :
    (∃ row ∈ (start.rows (version.source rows.length atom.relation)).toList, rows ++ [row] <+: choice) ↔
      rows <+: choice := by
  constructor
  · rintro ⟨row, _, goesOn⟩
    exact (List.prefix_append rows [row]).trans goesOn
  · rintro ⟨more, rfl⟩
    cases more with
    | nil =>
        obtain ⟨inside, _⟩ := List.getElem?_eq_some_iff.1 next
        have length := chosen.1
        rw [List.append_nil] at length
        omega
    | cons row more =>
        have goesOn : rows ++ [row] <+: rows ++ row :: more := ⟨more, by simp⟩
        exact ⟨row, (chosen.next_matches direct next goesOn).1, goesOn⟩

/-- The conditions of the next scan decide whether a row matches the next atom. -/
theorem decides_next {row : Row} {state : State} {conditions : List Cond} (wide : Wide version atoms start)
    (selected : Selected ordinal version atoms start rows)
    (member : row ∈ start.rows (version.source rows.length atom.relation))
    (isConditions : atom.args.zipIdx.filterMapM (matchBodyCode ordinal (atomSites atoms) rows.length) =
      some conditions) (bound : Bound state.bindings (rows ++ [row])) :
    Decides args state (allOf conditions)
      (Argument.Match ordinal (valuationOf atoms (rows ++ [row])) atom.args (row.take atom.arity)) := by
  refine decides_scan (bound rows.length row (by simp)) (direct atom (List.mem_of_getElem? next))
    (fun name isArg => ?_) (wide rows.length atom next row member) isConditions
  refine reads_of_bound bound (arity_le_length_of_snoc wide selected next member) fun site defined => ?_
  obtain ⟨other, alsoDefined, early⟩ := definition_of_argument next isArg
  rw [defined, Option.some.injEq] at alsoDefined
  subst alsoDefined
  rw [List.length_append, List.length_singleton]
  omega

end Choices

/-- What is inside all scans visits the rows that are bound. -/
theorem Inner.visits {start : Store} {known : Store → Prop} {inner : Op}
    {effect : List Row → Store → Option Row × Store} {rows : List Row}
    (isInner : Inner args ordinal version atoms start known inner effect)
    (chosen : Chosen ordinal version atoms start rows) :
    Visits (runOp args inner) rows rows.length known effect
      fun choice => Chosen ordinal version atoms start choice ∧ rows <+: choice := by
  refine ⟨[rows], fun choice => ?_, fun state bound same => ?_⟩
  · rw [List.mem_singleton]
    constructor
    · rintro rfl
      exact ⟨chosen, List.prefix_refl _⟩
    · rintro ⟨⟨long, _⟩, begins⟩
      exact (begins.eq_of_length (chosen.1.trans long.symm)).symm
  · have ran := isInner.returns rows state chosen.1 chosen.2 bound same
    rw [visitAll]
    revert ran
    cases effect rows state.store with
    | mk answer after =>
        intro ran
        cases answer with
        | none => exact ran
        | some answer => exact ran

/-- Nested scans visit the choices of rows that are selected for all atoms. -/
theorem visits_scans {start : Store} {known : Store → Prop} {inner : Op}
    {effect : List Row → Store → Option Row × Store}
    (isInner : Inner args ordinal version atoms start known inner effect)
    (direct : ∀ atom ∈ atoms, ∀ arg ∈ atom.args, arg.isDirect = true) (wide : Wide version atoms start) :
    ∀ (rest before : List Atom) (rows : List Row) (operation : Op), atoms = before ++ rest →
      rows.length = before.length → Selected ordinal version atoms start rows →
      (rest.zipIdx rows.length).foldrM
        (fun entry operation => scanCode ordinal version (atomSites atoms) entry.1 entry.2 operation) inner =
          some operation →
      Visits (runOp args operation) rows rows.length known effect
        fun choice => Chosen ordinal version atoms start choice ∧ rows <+: choice
  | [], before, rows, operation, all, length, selected, code => by
      cases code
      rw [List.append_nil] at all
      exact isInner.visits ⟨all ▸ length, selected⟩
  | atom :: rest, before, rows, operation, all, length, selected, code => by
      have next : atoms[rows.length]? = some atom := by
        rw [all, length]
        simp
      rw [List.zipIdx_cons, List.foldrM_cons] at code
      obtain ⟨nested, others, scanned⟩ := Option.bind_eq_some_iff.1 code
      obtain ⟨conditions, isConditions, same⟩ := Option.bind_eq_some_iff.1 scanned
      cases same
      -- With one more row bound, the scans of the remaining atoms visit the choices that begin with these rows. A row
      -- that does not match begins none of them, so it does no harm that nothing runs for it.
      have each : ∀ row ∈ (start.rows (version.source rows.length atom.relation)).toList,
          Visits (runOp args (guardedBy conditions nested)) (rows ++ [row]) (rows.length + 1) known effect
            fun choice => Chosen ordinal version atoms start choice ∧ rows ++ [row] <+: choice := by
        intro row member
        refine Visits.guardedBy (fun state => decides_next direct next wide selected member isConditions)
          (fun isMatch => ?_) fun choice isChoice => (isChoice.1.next_matches direct next isChoice.2).2
        have length' : (rows ++ [row]).length = rows.length + 1 := List.length_append
        have inner := visits_scans isInner direct wide rest (before ++ [atom]) (rows ++ [row]) nested (by simp [all])
          (by simp [length]) ((selected_snoc direct next).2 ⟨selected, member, isMatch⟩) (by rw [length']; exact others)
        exact inner.lower (Nat.le_of_eq length'.symm)
      obtain ⟨visited, isVisited, runs⟩ := Visits.scan next isInner.tables (visits_forRows isInner.visitAll_keeps each)
      refine ⟨visited, fun choice => (isVisited choice).trans (and_congr_right fun chosen => ?_), runs⟩
      exact chosen.goesOn_iff direct next

end DatalogRam.Lowering
