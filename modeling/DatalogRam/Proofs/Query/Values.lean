import DatalogRam.Proofs.Datalog.Aggregates
import DatalogRam.Proofs.Lowering.Frame
import DatalogRam.Proofs.Lowering.QueryCode
import DatalogRam.Proofs.Machine.Run

/-!
# Running the code of terms and conditions

The code of a term gives its word under the valuation that the bound rows describe, and the code of a condition
decides it. Neither changes the state.
-/

namespace DatalogRam.Lowering

open Machine Ram

/-- Where a variable is defined, the bound row has its word. -/
def Reads (sites : Sites) (bindings : Bindings) (valuation : Valuation) (name : String) : Prop :=
  ∀ site, sites.definition? name = some site →
    ∃ row, bindings.lookup site.tuple = some row ∧ row[site.column]? = some (valuation name)

/-- Where the value of an aggregate is read, the bound row has it. -/
def ReadsResult (sites : Sites) (bindings : Bindings) (results : Aggregate → Int64) (aggregate : Aggregate) : Prop :=
  ∀ site, sites.aggregate? aggregate = some site →
    ∃ row, bindings.lookup site.tuple = some row ∧ row[site.column]? = some (results aggregate)

variable {ordinal : String → Int64} {sites : Sites} {valuation : Valuation} {results : Aggregate → Int64}
variable {state : State} {args : Row}

theorem applyOperator_of_isTotalOn {symbols : Symbols} {op : Operator} {values : List Int64}
    (total : op.isTotalOn values.length = true) :
    applyOperator symbols op values = .ok (op.onWords values, symbols) := by
  match op, values with
  | .add, [left, right] => rfl
  | .sub, [left, right] => rfl
  | .mul, [left, right] => rfl
  | .neg, [value] => rfl
  | .max, first :: rest => rfl
  | .min, first :: rest => rfl

theorem returns_constant (value : Constant) :
    Returns (evalExpr args (constantCode ordinal value)) state (value.word ordinal) state := by
  cases value <;> exact Returns.pure _ _

theorem length_values (terms : List Argument) :
    (Argument.values ordinal valuation terms).length = terms.length := by
  rw [Argument.values_eq_map, List.length_map]

theorem returns_operator {op : Operator} {operands : List Expr} {values : List Int64}
    (ran : Returns (evalExprs args operands) state values state) (total : op.isTotalOn values.length = true) :
    Returns (evalExpr args (.operator op operands)) state (op.onWords values) state := by
  rw [evalExpr]
  exact ran.bind (Returns.runOperator (applyOperator_of_isTotalOn total))

mutual

theorem returns_valueWith :
    ∀ {arg : Argument} {expr : Expr}, arg.isComputed = true → valueCode ordinal sites arg = some expr →
      (∀ name ∈ arg.variables, Reads sites state.bindings valuation name) →
      (∀ aggregate ∈ Argument.aggregates arg, ReadsResult sites state.bindings results aggregate) →
      Returns (evalExpr args expr) state (arg.valueWith ordinal valuation results) state
  | .var name, expr, _, code, reads, _ => by
      rw [valueCode, Option.map_eq_some_iff] at code
      obtain ⟨site, defined, rfl⟩ := code
      obtain ⟨row, bound, inRow⟩ := reads name (by simp [Argument.variables]) site defined
      exact Returns.elementOf bound inRow
  | .constant value, expr, _, code, _, _ => by
      rw [valueCode, Option.some.injEq] at code
      rw [← code]
      exact returns_constant value
  | .operator op terms, expr, isComputed, code, reads, aggregates => by
      simp only [Argument.isComputed, Bool.and_eq_true] at isComputed
      rw [valueCode, Option.map_eq_some_iff] at code
      obtain ⟨exprs, codes, rfl⟩ := code
      rw [Argument.valueWith]
      refine returns_operator (returns_valuesWith isComputed.2 codes reads aggregates) ?_
      rw [Argument.length_valuesWith]
      exact isComputed.1
  | .aggregate function target body, expr, _, code, _, aggregates => by
      rw [valueCode, Option.map_eq_some_iff] at code
      obtain ⟨site, isSite, rfl⟩ := code
      obtain ⟨row, bound, inRow⟩ := aggregates _ (by simp [Argument.aggregates]) site isSite
      exact Returns.elementOf bound inRow
  | .unnamed, _, isComputed, _, _, _ => by simp [Argument.isComputed] at isComputed
  | .external _ _, _, isComputed, _, _, _ => by simp [Argument.isComputed] at isComputed
  | .record _, _, isComputed, _, _, _ => by simp [Argument.isComputed] at isComputed
  | .counter, _, isComputed, _, _, _ => by simp [Argument.isComputed] at isComputed

theorem returns_valuesWith :
    ∀ {terms : List Argument} {exprs : List Expr}, Argument.areComputed terms = true →
      valueCodes ordinal sites terms = some exprs →
      (∀ name ∈ Argument.variablesOfAll terms, Reads sites state.bindings valuation name) →
      (∀ aggregate ∈ Argument.aggregatesOfAll terms, ReadsResult sites state.bindings results aggregate) →
      Returns (evalExprs args exprs) state (Argument.valuesWith ordinal valuation results terms) state
  | [], exprs, _, code, _, _ => by
      rw [valueCodes, Option.some.injEq] at code
      rw [← code]
      exact Returns.pure _ _
  | term :: terms, exprs, areComputed, code, reads, aggregates => by
      simp only [Argument.areComputed, Bool.and_eq_true] at areComputed
      obtain ⟨expr, more, first, others, rfl⟩ := valueCodes_cons_eq_some code
      rw [evalExprs, Argument.valuesWith]
      refine (returns_valueWith areComputed.1 first (fun name member => reads name ?_) fun aggregate member =>
        aggregates aggregate ?_).bind ?_
      · exact List.mem_append_left _ member
      · exact List.mem_append_left _ member
      refine (returns_valuesWith areComputed.2 others (fun name member => reads name ?_) fun aggregate member =>
        aggregates aggregate ?_).bind (Returns.pure _ _)
      · exact List.mem_append_right _ member
      · exact List.mem_append_right _ member

end

theorem returns_value {arg : Argument} {expr : Expr} (isTerm : arg.isTerm = true)
    (code : valueCode ordinal sites arg = some expr)
    (reads : ∀ name ∈ arg.variables, Reads sites state.bindings valuation name) :
    Returns (evalExpr args expr) state (arg.value ordinal valuation) state := by
  rw [Argument.value_eq_valueWith]
  refine returns_valueWith (Argument.isComputed_of_isTerm isTerm) code reads fun aggregate member => ?_
  rw [aggregates_of_isTerm isTerm] at member
  cases member

theorem returns_values {terms : List Argument} {exprs : List Expr} (areTerms : Argument.areTerms terms = true)
    (codes : valueCodes ordinal sites terms = some exprs)
    (reads : ∀ name ∈ Argument.variablesOfAll terms, Reads sites state.bindings valuation name) :
    Returns (evalExprs args exprs) state (Argument.values ordinal valuation terms) state := by
  rw [Argument.values_eq_valuesWith]
  refine returns_valuesWith (Argument.areComputed_of_areTerms areTerms) codes reads fun aggregate member => ?_
  rw [aggregates_of_areTerms areTerms] at member
  cases member

/-! ## Existence checks -/

/-- The pattern for the words of arguments, with wildcards at the end. -/
def patternOf (ordinal : String → Int64) (valuation : Valuation) (terms : List Argument) (auxiliary : Nat) :
    List (Option Int64) :=
  terms.map (fun arg => if arg = .unnamed then none else some (arg.value ordinal valuation)) ++
    List.replicate auxiliary none

theorem fits_replicate {count : Nat} {row : Row} :
    Row.fits (List.replicate count none) row = true ↔ row.length = count := by
  induction count generalizing row with
  | zero => cases row <;> simp [Row.fits]
  | succ count ih => cases row <;> simp [Row.fits, List.replicate_succ, ih]

/-- A row fits given values and wildcards behind them if it begins with the values and has the right length. -/
theorem fits_values {values : Row} {count : Nat} {row : Row} :
    Row.fits (values.map some ++ List.replicate count none) row = true ↔
      row.length = values.length + count ∧ row.take values.length = values := by
  induction values generalizing row with
  | nil => simp [fits_replicate]
  | cons value values ih =>
      cases row with
      | nil => simp [Row.fits]
      | cons first row =>
          rw [List.map_cons, List.cons_append, Row.fits, Bool.and_eq_true, ih]
          simp [Nat.add_right_comm, and_left_comm, @eq_comm _ value first]

/-- A row fits the pattern if it has one column for each argument and the bookkeeping columns, and the former
match the arguments. -/
theorem fits_patternOf {terms : List Argument} {auxiliary : Nat} {row : Row} :
    Row.fits (patternOf ordinal valuation terms auxiliary) row = true ↔
      row.length = terms.length + auxiliary ∧
        Argument.Match ordinal valuation terms (row.take terms.length) := by
  induction terms generalizing row with
  | nil =>
      rw [patternOf, List.map_nil, List.nil_append, fits_replicate]
      simp [Argument.Match]
  | cons term terms ih =>
      rw [patternOf, List.map_cons, List.cons_append]
      cases row with
      | nil =>
          simp only [Row.fits, Bool.false_eq_true, List.length_nil, List.length_cons, false_iff, not_and]
          intro length
          omega
      | cons word row =>
          have rest : Row.fits (patternOf ordinal valuation terms auxiliary) row = true ↔ _ := ih
          rw [patternOf] at rest
          rw [Row.fits, Bool.and_eq_true, rest, List.length_cons, List.length_cons, List.take_succ_cons,
            Argument.Match]
          have first : (if term = .unnamed then none else some (term.value ordinal valuation)).all
              (fun wanted => wanted == word) = true ↔
                term = .unnamed ∨ term.value ordinal valuation = word := by
            split
            · next unnamed => simp [unnamed]
            · next named => simp [named]
          rw [first]
          constructor
          · rintro ⟨matches', length, others⟩
            exact ⟨by omega, matches', others⟩
          · rintro ⟨length, matches', others⟩
            exact ⟨matches', by omega, others⟩

theorem isUndefined_of_isTerm {arg : Argument} {expr : Expr} (isTerm : arg.isTerm = true)
    (code : valueCode ordinal sites arg = some expr) : expr.isUndefined = false := by
  cases arg with
  | var name =>
      rw [valueCode, Option.map_eq_some_iff] at code
      obtain ⟨site, _, rfl⟩ := code
      rfl
  | constant value =>
      rw [valueCode, Option.some.injEq] at code
      rw [← code]
      cases value <;> rfl
  | operator op terms =>
      rw [valueCode, Option.map_eq_some_iff] at code
      obtain ⟨exprs, _, rfl⟩ := code
      rfl
  | _ => simp [Argument.isTerm] at isTerm

theorem returns_wildcards (count : Nat) :
    Returns (evalPattern args (List.replicate count .undefined)) state (List.replicate count none) state := by
  induction count with
  | zero => exact Returns.pure _ _
  | succ count ih =>
      rw [List.replicate_succ, List.replicate_succ, evalPattern]
      exact Returns.bind (Returns.pure none state) (ih.bind (Returns.pure _ _))

theorem returns_pattern {terms : List Argument} {exprs : List Expr} {auxiliary : Nat}
    (plain : ∀ arg ∈ terms, arg = .unnamed ∨ arg.isTerm = true)
    (code : valueCodes ordinal sites terms = some exprs)
    (reads : ∀ name ∈ Argument.variablesOfAll terms, Reads sites state.bindings valuation name) :
    Returns (evalPattern args (exprs ++ List.replicate auxiliary .undefined)) state
      (patternOf ordinal valuation terms auxiliary) state := by
  induction terms generalizing exprs with
  | nil =>
      rw [valueCodes, Option.some.injEq] at code
      rw [← code]
      exact returns_wildcards auxiliary
  | cons term terms ih =>
      rw [valueCodes] at code
      obtain ⟨expr, first, rest⟩ := Option.bind_eq_some_iff.1 code
      obtain ⟨more, others, same⟩ := Option.bind_eq_some_iff.1 rest
      cases same
      have tail := ih (fun arg member => plain arg (List.mem_cons_of_mem _ member)) others
        fun name member => reads name (List.mem_append_right _ member)
      rw [patternOf] at tail ⊢
      rw [List.cons_append, List.map_cons, List.cons_append, evalPattern]
      rcases plain term List.mem_cons_self with rfl | isTerm
      · rw [valueCode, Option.some.injEq] at first
        rw [← first, if_pos rfl]
        exact tail.bind (Returns.pure _ _)
      · have named : term ≠ .unnamed := by
          rintro rfl
          simp [Argument.isTerm] at isTerm
        have value : Returns (some <$> evalExpr args expr) state
            (some (term.value ordinal valuation)) state := by
          rw [← bind_pure_comp]
          exact (returns_value isTerm first fun name member =>
            reads name (List.mem_append_left _ member)).bind (Returns.pure _ _)
        rw [isUndefined_of_isTerm isTerm first, if_neg Bool.false_ne_true, if_neg named]
        exact value.bind (tail.bind (Returns.pure _ _))

/-! ## Conditions -/

/-- The condition is tested without a fault or an effect, and it holds if and only if the fact does. -/
def Decides (args : Row) (state : State) (condition : Cond) (fact : Prop) : Prop :=
  ∃ answer, Returns (evalCond args condition) state answer state ∧ (answer = true ↔ fact)

theorem Decides.congr {condition : Cond} {fact other : Prop} (decides : Decides args state condition fact)
    (same : fact ↔ other) : Decides args state condition other := by
  obtain ⟨answer, returns, means⟩ := decides
  exact ⟨answer, returns, means.trans same⟩

theorem Decides.not {condition : Cond} {fact : Prop} (decides : Decides args state condition fact) :
    Decides args state (.not condition) (¬fact) := by
  obtain ⟨answer, returns, means⟩ := decides
  refine ⟨!answer, ?_, ?_⟩
  · rw [evalCond]
    exact returns.bind (Returns.pure _ _)
  · rw [← means]
    cases answer <;> simp

theorem Decides.both {left right : Cond} {first second : Prop} (isFirst : Decides args state left first)
    (isSecond : Decides args state right second) : Decides args state (.both left right) (first ∧ second) := by
  obtain ⟨answer, returns, means⟩ := isFirst
  obtain ⟨answer', returns', means'⟩ := isSecond
  rw [← means, ← means']
  refine ⟨answer && answer', ?_, Bool.and_eq_true_iff⟩
  rw [evalCond]
  refine returns.bind ?_
  cases answer with
  | true => exact returns'
  | false => exact Returns.pure _ _

/-- A conjunction decides that each of its conditions holds. -/
theorem Decides.allOf {conditions : List Cond} {fact : Cond → Prop}
    (each : ∀ condition ∈ conditions, Decides args state condition (fact condition)) :
    Decides args state (allOf conditions) (∀ condition ∈ conditions, fact condition) := by
  cases conditions with
  | nil => exact ⟨true, Returns.pure _ _, by simp⟩
  | cons first rest =>
      have joined : ∀ (conditions : List Cond) (start : Cond) (known : Prop),
          Decides args state start known →
            (∀ condition ∈ conditions, Decides args state condition (fact condition)) →
              Decides args state (conditions.foldl .both start)
                (known ∧ ∀ condition ∈ conditions, fact condition) := by
        intro conditions
        induction conditions with
        | nil => exact fun start known isKnown _ => isKnown.congr (by simp)
        | cons second others ih =>
            intro start known isKnown each
            refine (ih _ _ (isKnown.both (each second List.mem_cons_self)) fun condition member =>
              each condition (List.mem_cons_of_mem _ member)).congr ?_
            rw [List.forall_mem_cons, and_assoc]
      rw [List.forall_mem_cons]
      exact joined rest first _ (each first List.mem_cons_self) fun condition member =>
        each condition (List.mem_cons_of_mem _ member)

theorem decides_compare {op : Comparison} {left right : Expr} {first second : Int64}
    (isFirst : Returns (evalExpr args left) state first state)
    (isSecond : Returns (evalExpr args right) state second state) :
    Decides args state (.compare op left right) (op.holds first second = true) := by
  refine ⟨op.holds first second, ?_, Iff.rfl⟩
  rw [evalCond]
  exact isFirst.bind (isSecond.bind (Returns.pure _ _))

/-- An existence check whose values ask for words decides whether some row has the right length and matches. -/
theorem decides_holds {relation : String} {terms : List Argument} {values : List Expr} {auxiliary : Nat}
    (pattern : Returns (evalPattern args values) state (patternOf ordinal valuation terms auxiliary) state) :
    Decides args state (.holds relation values)
      (∃ row ∈ state.store.rows relation, row.length = terms.length + auxiliary ∧
        Argument.Match ordinal valuation terms (row.take terms.length)) := by
  refine ⟨(state.store.rows relation).anyFits (patternOf ordinal valuation terms auxiliary), ?_, ?_⟩
  · rw [evalCond]
    exact pattern.bind rfl
  · rw [Rows.anyFits, List.any_eq_true]
    simp only [fits_patternOf]
    rfl

theorem decides_existence {relation : String} {terms : List Argument} {exprs : List Expr} {auxiliary : Nat}
    (plain : ∀ arg ∈ terms, arg = .unnamed ∨ arg.isTerm = true)
    (code : valueCodes ordinal sites terms = some exprs)
    (reads : ∀ name ∈ Argument.variablesOfAll terms, Reads sites state.bindings valuation name) :
    Decides args state (existence relation exprs auxiliary)
      (∃ row ∈ state.store.rows relation, row.length = terms.length + auxiliary ∧
        Argument.Match ordinal valuation terms (row.take terms.length)) :=
  decides_holds (returns_pattern plain code reads)

theorem decides_isEmpty (relation : String) :
    Decides args state (.isEmpty relation) (∀ row, row ∉ state.store.rows relation) := by
  refine ⟨(state.store.rows relation).isEmpty, rfl, ?_⟩
  rw [Rows.isEmpty, List.isEmpty_iff, List.eq_nil_iff_forall_not_mem]
  rfl

theorem returns_filter {condition : Cond} {operation : Op} {fact : Prop} {flow : Flow} {final : State}
    (decides : Decides args state condition fact)
    (returns : fact → Returns (runOp args operation) state flow final)
    (otherwise : ¬fact → flow = .proceed ∧ final = state) :
    Returns (runOp args (.filter condition operation)) state flow final := by
  obtain ⟨answer, tested, means⟩ := decides
  rw [runOp]
  refine tested.bind ?_
  cases answer with
  | true => exact returns (means.1 rfl)
  | false =>
      obtain ⟨rfl, rfl⟩ := otherwise fun holds => Bool.false_ne_true (means.2 holds)
      exact Returns.pure _ _

end DatalogRam.Lowering
