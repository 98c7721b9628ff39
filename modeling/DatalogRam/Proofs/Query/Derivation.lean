import DatalogRam.Proofs.Datalog.SemiNaive
import DatalogRam.Proofs.Query.Contents

/-!
# Choices of rows and derivations

The choices of rows for which a query inserts are the derivations of its clause from the logical contents of the
tables. A derivation may give any word to a variable that no positive atom has, but the code of a clause that
reads such a variable cannot be written.
-/

namespace DatalogRam.Lowering

open Machine Ram

variable {ordinal : String → Int64} {plan : Plan} {clause : Clause} {id : Nat} {version : Version}
variable {store : Store} {sites : Sites}

/-! ## Variables that are read are defined -/

mutual

theorem defined_of_valueCode :
    ∀ {arg : Argument} {expr : Expr}, arg.isTerm = true → valueCode ordinal sites arg = some expr →
      ∀ name ∈ arg.variables, ∃ site, sites.definition? name = some site
  | .var name, expr, _, code, other, member => by
      rw [valueCode, Option.map_eq_some_iff] at code
      obtain ⟨site, defined, _⟩ := code
      rw [Argument.variables, List.mem_singleton] at member
      exact ⟨site, member ▸ defined⟩
  | .constant _, _, _, _, _, member => by cases member
  | .operator _ terms, expr, isTerm, code, other, member => by
      simp only [Argument.isTerm, Bool.and_eq_true] at isTerm
      rw [valueCode, Option.map_eq_some_iff] at code
      obtain ⟨exprs, codes, _⟩ := code
      exact defined_of_valueCodes (fun arg isArg => .inr (Argument.areTerms_iff.1 isTerm.2 arg isArg)) codes
        other member
  | .unnamed, _, isTerm, _, _, _ => by simp [Argument.isTerm] at isTerm
  | .external _ _, _, isTerm, _, _, _ => by simp [Argument.isTerm] at isTerm
  | .aggregate _ _ _, _, isTerm, _, _, _ => by simp [Argument.isTerm] at isTerm
  | .record _, _, isTerm, _, _, _ => by simp [Argument.isTerm] at isTerm
  | .counter, _, isTerm, _, _, _ => by simp [Argument.isTerm] at isTerm

theorem defined_of_valueCodes :
    ∀ {terms : List Argument} {exprs : List Expr}, (∀ arg ∈ terms, arg = .unnamed ∨ arg.isTerm = true) →
      valueCodes ordinal sites terms = some exprs →
      ∀ name ∈ Argument.variablesOfAll terms, ∃ site, sites.definition? name = some site
  | [], _, _, _, _, member => by cases member
  | term :: terms, exprs, plain, code, name, member => by
      obtain ⟨expr, more, first, others, _⟩ := valueCodes_cons_eq_some code
      rw [Argument.variablesOfAll, List.mem_append] at member
      rcases member with member | member
      · rcases plain term List.mem_cons_self with rfl | isTerm
        · cases member
        · exact defined_of_valueCode isTerm first name member
      · exact defined_of_valueCodes (fun arg isArg => plain arg (List.mem_cons_of_mem _ isArg)) others name member

end

/-- Every variable that a clause reads outside of its positive atoms is an argument of one. -/
structure Clause.Grounded (clause : Clause) : Prop where
  head : ∀ name ∈ clause.head.variables, ∃ site, (atomSites clause.positiveAtoms).definition? name = some site
  body : ∀ literal ∈ clause.body, literal.positiveAtom? = none → ∀ name ∈ literal.variables,
    ∃ site, (atomSites clause.positiveAtoms).definition? name = some site

theorem grounded_constraint {literal : Literal} {found : Option Cond} (simple : clause.Simple)
    (member : literal ∈ clause.body) (isOther : literal.positiveAtom? = none)
    (code : constraintCode ordinal plan sites literal = some found) :
    ∀ name ∈ literal.variables, ∃ site, sites.definition? name = some site := by
  intro name isVariable
  cases literal with
  | positive relation terms => cases isOther
  | negative relation terms =>
      obtain ⟨_, exprs, values, _⟩ := constraintCode_negative_eq_some code
      have isAtom : (⟨relation, terms⟩ : Atom) ∈ clause.negatedAtoms := Clause.mem_negatedAtoms.2 member
      exact defined_of_valueCodes (simple.negated _ isAtom) values name isVariable
  | comparison op left right =>
      obtain ⟨first, second, isFirst, isSecond, _⟩ := constraintCode_comparison_eq_some code
      obtain ⟨leftTerm, rightTerm⟩ := simple.compared op left right member
      rw [Literal.variables, List.mem_append] at isVariable
      rcases isVariable with isVariable | isVariable
      · exact defined_of_valueCode leftTerm isFirst name isVariable
      · exact defined_of_valueCode rightTerm isSecond name isVariable
  | truth value => cases isVariable

theorem constraintCode_of_constrained {body : List Literal} {inner operation : Op}
    (code : constrainedCode ordinal plan sites body inner = some operation) :
    ∀ literal ∈ body, ∃ found, constraintCode ordinal plan sites literal = some found := by
  induction body generalizing operation with
  | nil => simp
  | cons literal rest ih =>
      rw [constrainedCode, List.foldrM_cons] at code
      obtain ⟨nested, others, guarded⟩ := Option.bind_eq_some_iff.1 code
      rw [Option.map_eq_some_iff] at guarded
      obtain ⟨found, isFound, _⟩ := guarded
      intro other member
      rcases List.mem_cons.1 member with rfl | member
      · exact ⟨found, isFound⟩
      · exact ih others other member

/-- If a simple clause has code, what it reads is bound. -/
theorem grounded_of_code {statement : Stmt} (simple : clause.Simple)
    (isFact : clause.isFact = true → version = .complete)
    (code : clauseCode ordinal plan clause id version = some statement) : Clause.Grounded clause := by
  obtain ⟨_, query, isQuery, _⟩ := clauseCode_eq_some code
  obtain ⟨inner, constrained, scanned, isInner, isConstrained, _, _⟩ := clauseQuery_simple simple isFact isQuery
  obtain ⟨_, _, values, _, _⟩ := headCode_eq_some isInner
  refine ⟨defined_of_valueCodes (fun arg member => .inr (simple.head arg member)) values, ?_⟩
  intro literal member isOther
  obtain ⟨found, isFound⟩ := constraintCode_of_constrained isConstrained literal member
  exact grounded_constraint simple member isOther isFound

/-! ## Words of terms depend on their variables -/

theorem value_congr {valuation other : Valuation} {arg : Argument}
    (same : ∀ name ∈ arg.variables, valuation name = other name) :
    arg.value ordinal valuation = arg.value ordinal other := by
  rw [Argument.value_eq_valueWith, Argument.value_eq_valueWith]
  exact Argument.valueWith_congr (fun name member => same name (ownVariables_subset arg member)) fun _ _ => rfl

theorem values_congr {valuation other : Valuation} {terms : List Argument}
    (same : ∀ name ∈ Argument.variablesOfAll terms, valuation name = other name) :
    Argument.values ordinal valuation terms = Argument.values ordinal other terms := by
  rw [Argument.values_eq_valuesWith, Argument.values_eq_valuesWith]
  exact Argument.valuesWith_congr (fun name member => same name (ownVariablesOfAll_subset terms member)) fun _ _ => rfl

theorem match_congr_variables {valuation other : Valuation} {terms : List Argument} {row : Row}
    (same : ∀ name ∈ Argument.variablesOfAll terms, valuation name = other name) :
    Argument.Match ordinal valuation terms row ↔ Argument.Match ordinal other terms row :=
  Argument.match_congr fun name member => same name (ownVariablesOfAll_subset terms member)

/-- A row that matches has the words of the variables. -/
theorem word_of_match {valuation : Valuation} {terms : List Argument} {row : Row} {column : Nat} {name : String}
    (isMatch : Argument.Match ordinal valuation terms row) (atColumn : terms[column]? = some (.var name)) :
    row[column]? = some (valuation name) := by
  induction terms generalizing row column with
  | nil => simp at atColumn
  | cons term terms ih =>
      cases row with
      | nil => exact absurd isMatch (by simp [Argument.Match])
      | cons word row =>
          obtain ⟨first, rest⟩ := isMatch
          cases column with
          | zero =>
              simp only [List.getElem?_cons_zero, Option.some.injEq] at atColumn
              subst atColumn
              rcases first with impossible | same
              · cases impossible
              · rw [List.getElem?_cons_zero, ← same]
                rfl
          | succ column =>
              rw [List.getElem?_cons_succ] at atColumn ⊢
              exact ih rest atColumn

theorem passes_congr {valuation other : Valuation} {auxiliary : Nat} {literal : Literal}
    (same : literal.positiveAtom? = none → ∀ name ∈ literal.variables, valuation name = other name) :
    Passes ordinal auxiliary valuation store literal ↔ Passes ordinal auxiliary other store literal := by
  cases literal with
  | positive relation args => rfl
  | negative relation args =>
      exact not_congr (exists_congr fun row => and_congr_right fun _ => match_congr_variables (same rfl))
  | comparison op left right =>
      rw [Passes, Passes, value_congr fun name member => same rfl name (List.mem_append_left _ member),
        value_congr fun name member => same rfl name (List.mem_append_right _ member)]
  | truth value => rfl

/-! ## From choices to derivations and back -/

/-- Facts are the logical contents of the tables that a version of a query reads. -/
structure ReadsContents (plan : Plan) (clause : Clause) (version : Version) (store : Store)
    (positive : Nat → Facts) (negated : Facts) : Prop where
  positive : ∀ position atom, clause.positiveAtoms[position]? = some atom →
    content store (version.source position atom.relation) atom.arity plan.auxiliary =
      positive position atom.relation
  negated : ∀ atom ∈ clause.negatedAtoms,
    content store atom.relation.text atom.arity plan.auxiliary = negated atom.relation

theorem passes_iff_holds {valuation : Valuation} {positive : Nat → Facts} {negated : Facts} {literal : Literal}
    (reads : ReadsContents plan clause version store positive negated) (member : literal ∈ clause.body)
    (isOther : literal.positiveAtom? = none) :
    Passes ordinal plan.auxiliary valuation store literal ↔
      literal.Holds ordinal valuation (fun _ => ∅) negated := by
  cases literal with
  | positive relation args => cases isOther
  | negative relation args =>
      have same := reads.negated ⟨relation, args⟩ (Clause.mem_negatedAtoms.2 member)
      rw [Passes, Literal.Holds, ← same]
      rfl
  | comparison op left right => rfl
  | truth value => rfl

theorem derives_of_fires {rows : List Row} {positive : Nat → Facts} {negated : Facts}
    (reads : ReadsContents plan clause version store positive negated)
    (shaped : Shaped version plan.auxiliary clause.positiveAtoms store)
    (fires : Fires ordinal plan clause version store rows) :
    clause.Derives ordinal positive negated (headOf ordinal clause rows) := by
  refine ⟨valuationOf clause.positiveAtoms rows, fun position atom atPosition => ?_,
    fun literal member isOther => ?_, rfl⟩
  · obtain ⟨inside, _⟩ := List.getElem?_eq_some_iff.1 atPosition
    have isRow := List.getElem?_eq_getElem (fires.length ▸ inside)
    obtain ⟨other, isOther, member, isMatch⟩ := fires.selected position _ isRow
    rw [atPosition, Option.some.injEq] at isOther
    subst isOther
    refine ⟨_, ?_, isMatch⟩
    rw [← reads.positive position atom atPosition]
    exact ⟨_, member, shaped position atom atPosition _ member, rfl⟩
  · exact (passes_iff_holds reads member isOther).1 (fires.passes literal member)

/-- A choice for each element of a list. -/
theorem exists_choice {α β : Type} {property : Nat → α → β → Prop} (elements : List α)
    (each : ∀ position element, elements[position]? = some element → ∃ b, property position element b) :
    ∃ chosen : List β, chosen.length = elements.length ∧
      ∀ position element b, elements[position]? = some element → chosen[position]? = some b →
        property position element b := by
  induction elements generalizing property with
  | nil => exact ⟨[], rfl, by simp⟩
  | cons element rest ih =>
      obtain ⟨b, first⟩ := each 0 element rfl
      obtain ⟨chosen, length, others⟩ := @ih (fun position => property (position + 1))
        fun position other found => each (position + 1) other found
      refine ⟨b :: chosen, by rw [List.length_cons, List.length_cons, length], fun position other c found isC => ?_⟩
      cases position with
      | zero =>
          cases found
          cases isC
          exact first
      | succ position => exact others position other c found isC

section Matches

variable {valuation : Valuation} {rows : List Row} (length : rows.length = clause.positiveAtoms.length)
  (chosen : ∀ (position : Nat) (atom : Atom) (row : Row), clause.positiveAtoms[position]? = some atom →
    rows[position]? = some row → row ∈ store.rows (version.source position atom.relation) ∧
      Argument.Match ordinal valuation atom.args (row.take atom.arity))

include length chosen

/-- Rows that match the atoms under a valuation have its words for their variables. -/
theorem valuationOf_of_matches {name : String}
    (defined : ∃ site, (atomSites clause.positiveAtoms).definition? name = some site) :
    valuationOf clause.positiveAtoms rows name = valuation name := by
  obtain ⟨site, isSite⟩ := defined
  obtain ⟨atom, atTuple, argument⟩ := argument_of_definition isSite
  obtain ⟨inside, _⟩ := List.getElem?_eq_some_iff.1 atTuple
  have isRow := List.getElem?_eq_getElem (length ▸ inside)
  have word := word_of_match (chosen site.tuple atom _ atTuple isRow).2 argument
  have within : site.column < atom.arity := (List.getElem?_eq_some_iff.1 argument).1
  rw [List.getElem?_take_of_lt within] at word
  simp only [valuationOf, isSite, isRow, word, Option.bind_some, Option.getD_some]

/-- Rows that match the atoms under a valuation are selected. -/
theorem selected_of_matches (direct : ∀ atom ∈ clause.positiveAtoms, ∀ arg ∈ atom.args, arg.isDirect = true) :
    Selected ordinal version clause.positiveAtoms store rows := by
  intro position row isRow
  obtain ⟨inside, _⟩ := List.getElem?_eq_some_iff.1 isRow
  have atPosition := List.getElem?_eq_getElem (length ▸ inside)
  obtain ⟨inTable, isMatch⟩ := chosen position _ row atPosition isRow
  refine ⟨_, atPosition, inTable, ?_⟩
  refine (match_congr (direct _ (List.getElem_mem _)) fun name isArg => ?_).2 isMatch
  obtain ⟨site, defined, _⟩ := definition_of_argument atPosition isArg
  exact valuationOf_of_matches length chosen ⟨site, defined⟩

/-- Rows that match the atoms under a valuation fire if the other literals pass under it. -/
theorem fires_of_matches (simple : clause.Simple) (grounded : Clause.Grounded clause)
    (passes : ∀ literal ∈ clause.body, Passes ordinal plan.auxiliary valuation store literal) :
    Fires ordinal plan clause version store rows where
  length := length
  selected := selected_of_matches length chosen simple.positive
  passes := by
    intro literal member
    refine (passes_congr fun isOther name isVariable => ?_).2 (passes literal member)
    exact valuationOf_of_matches length chosen (grounded.body literal member isOther name isVariable)

end Matches

theorem fires_of_derives {positive : Nat → Facts} {negated : Facts} {row : Row} (simple : clause.Simple)
    (grounded : Clause.Grounded clause) (reads : ReadsContents plan clause version store positive negated)
    (derives : clause.Derives ordinal positive negated row) :
    ∃ rows, Fires ordinal plan clause version store rows ∧ headOf ordinal clause rows = row := by
  obtain ⟨valuation, atoms, others, rfl⟩ := derives
  obtain ⟨rows, length, chosen⟩ := exists_choice clause.positiveAtoms
    fun position atom atPosition => by
      obtain ⟨logical, member, isMatch⟩ := atoms position atom atPosition
      rw [← reads.positive position atom atPosition] at member
      obtain ⟨full, inTable, _, taken⟩ := member
      exact (⟨full, inTable, taken ▸ isMatch⟩ : ∃ full : Row,
        full ∈ store.rows (version.source position atom.relation) ∧
          Argument.Match ordinal valuation atom.args (full.take atom.arity))
  refine ⟨rows, fires_of_matches length chosen simple grounded fun literal member => ?_, ?_⟩
  · cases isOther : literal.positiveAtom? with
    | some atom =>
        cases literal with
        | positive relation args => trivial
        | _ => cases isOther
    | none => exact (passes_iff_holds reads member isOther).2 (others literal member isOther)
  · exact values_congr fun name isVariable => valuationOf_of_matches length chosen (grounded.head name isVariable)

end DatalogRam.Lowering
