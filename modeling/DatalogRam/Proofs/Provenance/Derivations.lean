import DatalogRam.Proofs.Lowering.ExplanationWriting
import DatalogRam.Proofs.Lowering.Total
import DatalogRam.Proofs.Provenance.Answers
import DatalogRam.Proofs.Provenance.Decisions
import DatalogRam.Proofs.Provenance.Levels

/-!
# Derivations below a level

A rule recorded for provenance has a subroutine that derives its head: given words for the variables and a level, it
searches the stored rows below the level. It answers with rows that derive the head for these words, and it comes to
its end without an answer only if there are none.
-/

namespace DatalogRam

open Machine

/-- A rule without aggregates and counters whose derivations can be searched: its positive atoms ask for variables,
wildcards and constants, everything else is computed from the variables of these atoms, and no variable for a level
is in the head. -/
structure Clause.Searchable (program : Program) (clause : Clause) : Prop where
  rule : clause.isFact = false
  simple : clause.Simple
  negated : ∀ atom ∈ clause.negatedAtoms, ∀ arg ∈ atom.args, arg.isTerm = true
  bound : clause.Bound
  declared : Lowering.Clause.Declared program clause
  unleveled : ∀ arg ∈ clause.head.args, ∀ name ∈ arg.variables, isLevelVariable name = false

namespace Lowering

open Ram

/-- Stored rows, one for each positive atom, that derive a head below a level: they agree on the variables and
constants of the atoms and make all negations and constraints true, and the arguments of the head have the same words
for them as for the slots. -/
structure Supports (ordinal : String → Int64) (store : Store) (clause : Clause) (args : Row) (level : Int64)
    (valuation : Valuation) (rows : List Row) : Prop where
  length : rows.length = clause.positiveAtoms.length
  stored : ∀ (position : Nat) (atom : Atom) (row : Row), clause.positiveAtoms[position]? = some atom →
    rows[position]? = some row →
      row ∈ store.rows atom.relation.text ∧ Argument.Match ordinal valuation atom.args (row.take atom.arity)
  below : ∀ row ∈ rows, rowLevel row < level
  passes : ∀ literal ∈ clause.body, Passes ordinal 2 valuation store literal
  head : ∀ arg ∈ clause.head.args,
    arg.value ordinal valuation = arg.value ordinal (argumentOf (Slots.ofClause clause) args)

/-- The rows without the numbers of their rules, and then the words of the negated atoms. -/
def reportOf (ordinal : String → Int64) (clause : Clause) (valuation : Valuation) (rows : List Row) : Row :=
  ((clause.positiveAtoms.zip rows).map fun entry => entry.2.eraseIdx entry.1.arity).flatten ++
    (clause.negatedAtoms.map fun atom => Argument.values ordinal valuation atom.args).flatten

variable {ordinal : String → Int64} {plan : Plan} {clause : Clause} {args : Row} {level : Int64} {store : Store}
variable {valuation : Valuation} {rows : List Row}

/-! ## Code -/

theorem isSome_matchHead {frame : Frame} {slots : Slots} {arg : Argument} (isTerm : arg.isTerm = true)
    (slotted : ∀ name ∈ arg.variables, name ∈ slots.names)
    (defined : ∀ name ∈ arg.variables, ∃ site, frame.sites.definition? name = some site) :
    (matchHeadCode ordinal frame slots arg).isSome := by
  have isWanted : (wantedCode ordinal slots arg).isSome := by
    cases arg with
    | var name =>
        obtain ⟨slot, isSlot, _⟩ := slot_of_mem (slotted name (by simp [Argument.variables]))
        rw [wantedCode, isSlot]
        rfl
    | constant value => rfl
    | operator op terms =>
        obtain ⟨expr, redirected, redirects⟩ := @exists_redirects ordinal slots _ isTerm slotted
        simp only [wantedCode, aggregates_of_isTerm isTerm, redirects.redirectedCode_eq]
        rfl
    | unnamed | external | aggregate | record | counter => cases isTerm
  obtain ⟨wanted, found⟩ := Option.isSome_iff_exists.1 isWanted
  rw [matchHeadCode, found]
  cases wanted with
  | none => rfl
  | some expr =>
      change (compareWantedCode ordinal frame.sites arg (some expr)).isSome
      rw [compareWantedCode, Option.isSome_map]
      exact isSome_value isTerm defined

section Searchable

variable (searchable : clause.Searchable plan.program)

include searchable

theorem Searchable.slotted : ∀ arg ∈ clause.head.args, ∀ name ∈ arg.variables, name ∈ (Slots.ofClause clause).names := by
  intro arg isArg name isVariable
  apply mem_names_ofClause _ (searchable.unleveled arg isArg name isVariable)
  exact List.mem_append_right _ (Argument.mem_variablesOfAll.2 ⟨arg, isArg, isVariable⟩)

/-- The subroutine that searches derivations has code. -/
theorem isSome_explanation : (explanationCode ordinal plan clause (Slots.ofClause clause)).isSome := by
  obtain ⟨relation, found⟩ := searchable.declared.exists_relation clause.head_mem_atoms
  have grounded := grounded_of_bound searchable.bound
  rw [explanationCode, found]
  apply isSome_rule searchable.simple grounded searchable.declared
  have someNegated : (clause.negatedAtoms.mapM fun atom =>
      valueCodes ordinal (simpleFrame clause).sites atom.args).isSome := by
    apply isSome_mapM
    intro atom member
    apply isSome_values (fun arg isArg => .inr (searchable.negated atom member arg isArg))
    exact grounded.body (.negative atom.relation atom.args) (Clause.mem_negatedAtoms.1 member) rfl
  have someHead : (clause.head.args.filterMapM
      (matchHeadCode ordinal (simpleFrame clause) (Slots.ofClause clause))).isSome := by
    apply isSome_filterMapM
    intro arg isArg
    apply isSome_matchHead (searchable.simple.head arg isArg) (Searchable.slotted searchable arg isArg)
    intro name isVariable
    exact grounded.head name (Argument.mem_variablesOfAll.2 ⟨arg, isArg, isVariable⟩)
  obtain ⟨negated, areNegated⟩ := Option.isSome_iff_exists.1 someNegated
  obtain ⟨conditions, areConditions⟩ := Option.isSome_iff_exists.1 someHead
  rw [answerCode, areNegated]
  change ((clause.head.args.filterMapM (matchHeadCode ordinal (simpleFrame clause) (Slots.ofClause clause))).bind _).isSome
  rw [areConditions]
  rfl

/-! ## Choices of rows -/

section Choices

variable (shaped : ∀ atom ∈ clause.positiveAtoms, ∀ row ∈ store.rows atom.relation.text, row.length = atom.arity + 2)
  (count : args.length = (Slots.ofClause clause).size)

omit searchable in
include count in
theorem limit_of_append : ((args ++ [level])[(Slots.ofClause clause).size]?).getD 0 = level := by
  rw [← count, List.getElem?_concat_length, Option.getD_some]

include shaped count

/-- Rows that derive the head below the level fire and are wanted, and they are what is reported. -/
theorem fires_of_supports (supports : Supports ordinal store clause args level valuation rows)
    (isProvenance : plan.auxiliary = 2) :
    Fires ordinal plan clause .complete store rows ∧
      Wanted ordinal clause (Slots.ofClause clause) (args ++ [level]) rows ∧
      answerOf ordinal clause rows = reportOf ordinal clause valuation rows := by
  have grounded := grounded_of_bound searchable.bound
  have same {name : String} (defined : ∃ site, (atomSites clause.positiveAtoms).definition? name = some site) :
      valuationOf clause.positiveAtoms rows name = valuation name :=
    @valuationOf_of_matches ordinal clause .complete store valuation rows supports.length supports.stored name defined
  have fires : Fires ordinal plan clause .complete store rows :=
    fires_of_matches supports.length supports.stored searchable.simple grounded
      fun literal member => isProvenance ▸ supports.passes literal member
  refine ⟨fires, ⟨fun arg isArg => ?_, ?_⟩, ?_⟩
  · have ofArgs : arg.value ordinal (argumentOf (Slots.ofClause clause) (args ++ [level])) =
        arg.value ordinal (argumentOf (Slots.ofClause clause) args) :=
      value_congr fun name _ => argumentOf_append _ _ _ _ (Nat.le_of_eq count.symm)
    rw [ofArgs, ← supports.head arg isArg]
    apply value_congr
    intro name isVariable
    exact same (grounded.head name (Argument.mem_variablesOfAll.2 ⟨arg, isArg, isVariable⟩))
  · have levels : bodyLevelsOf clause.positiveAtoms rows = rows.map rowLevel := by
      apply bodyLevelsOf_eq supports.length
      intro position atom row atPosition isRow
      exact shaped atom (List.mem_of_getElem? atPosition) row (supports.stored position atom row atPosition isRow).1
    rw [limit_of_append count, levels]
    exact List.forall_mem_map.2 supports.below
  · rw [answerOf, reportOf]
    congr 2
    apply List.map_congr_left
    intro atom member
    apply values_congr
    intro name isVariable
    exact same (grounded.body (.negative atom.relation atom.args) (Clause.mem_negatedAtoms.1 member) rfl name isVariable)

omit searchable in
/-- Rows that fire and are wanted derive the head below the level. -/
theorem supports_of_fires (isProvenance : plan.auxiliary = 2)
    (fires : Fires ordinal plan clause .complete store rows)
    (wanted : Wanted ordinal clause (Slots.ofClause clause) (args ++ [level]) rows) :
    Supports ordinal store clause args level (valuationOf clause.positiveAtoms rows) rows where
  length := fires.length
  stored := by
    intro position atom row atPosition isRow
    obtain ⟨other, isOther, member, isMatch⟩ := fires.selected position row isRow
    obtain rfl : atom = other := Option.some.inj (atPosition.symm.trans isOther)
    exact ⟨member, isMatch⟩
  below := by
    have levels : bodyLevelsOf clause.positiveAtoms rows = rows.map rowLevel := by
      apply bodyLevelsOf_eq fires.length
      intro position atom row atPosition isRow
      obtain ⟨other, isOther, member, isMatch⟩ := fires.selected position row isRow
      obtain rfl : atom = other := Option.some.inj (atPosition.symm.trans isOther)
      exact shaped atom (List.mem_of_getElem? atPosition) row member
    have low := wanted.low
    rw [limit_of_append count, levels] at low
    exact List.forall_mem_map.1 low
  passes := fun literal member => isProvenance ▸ fires.passes literal member
  head := by
    intro arg isArg
    rw [wanted.head arg isArg]
    exact value_congr fun name _ => argumentOf_append _ _ _ _ (Nat.le_of_eq count.symm)

end Choices

end Searchable

/-- The subroutine that derives the head of a rule can be written. A call ends without a fault, and it answers if and
only if stored rows derive the head for the words in the slots below the level. What it answers reports such rows. -/
def AnswersBelowLevel (plan : Plan) (clause : Clause) (id : Nat) (draft : Draft) : Prop :=
  ∃ body last, outcome (lowerComplete plan clause id (.explanation (Slots.ofClause clause))) draft = (.ok body, last) ∧
    ∀ (compiled : Ram.Program) (name : String), compiled.symbols.Extends last.symbols →
      compiled.subroutine? name = some ⟨body, (Slots.ofClause clause).names ++ [levelColumn]⟩ →
        ∀ (rounds : Nat) (args : Row) (level : Int64) (state : State), args.length = (Slots.ofClause clause).size →
          (∀ atom ∈ clause.positiveAtoms, ∀ row ∈ state.store.rows atom.relation.text, row.length = atom.arity + 2) →
            ∃ answer bindings,
              Returns (callSubroutine compiled rounds name (args ++ [level])) state answer
                { state with bindings := bindings } ∧
              (answer.isSome ↔ ∃ valuation rows,
                Supports compiled.symbols.ordinal state.store clause args level valuation rows) ∧
              ∀ report, answer = some report → ∃ valuation rows,
                Supports compiled.symbols.ordinal state.store clause args level valuation rows ∧
                  report = reportOf compiled.symbols.ordinal clause valuation rows

theorem derivation_answers_below (searchable : clause.Searchable plan.program) (strategy : plan.strategy = .provenance)
    (id : Nat) (draft : Draft) : AnswersBelowLevel plan clause id draft := by
  have isProvenance : plan.auxiliary = 2 := by
    rw [Plan.auxiliary, strategy]
    rfl
  obtain ⟨body, last, ran, code⟩ := Writes.exists_ok
    (fun ordinal => @writes_derivation plan ordinal clause id (Slots.ofClause clause) searchable.rule)
    (fun ordinal => @isSome_explanation ordinal plan clause searchable) draft
  refine ⟨body, last, ran, fun compiled name extended found rounds args level state count shaped => ?_⟩
  have long : (args ++ [level]).length = (Slots.ofClause clause).size + 1 := by
    rw [List.length_append, count, List.length_singleton]
  obtain ⟨answer, runs, means⟩ := returns_answer searchable.simple (Searchable.slotted searchable) searchable.negated
    strategy (fun position atom atPosition => isProvenance ▸ shaped atom (List.mem_of_getElem? atPosition)) long
    (code _ ((Symbols.agrees_ordinal compiled.symbols).of_extends extended))
  obtain ⟨bindings, returned⟩ := runs rounds { state with bindings := [] } rfl
  have parameters : (args ++ [level]).length = ((Slots.ofClause clause).names ++ [levelColumn]).length := by
    rw [long, List.length_append, List.length_singleton, Slots.size]
  have called := returned.callSubroutine found parameters
  cases answer with
  | none =>
      have unsupported : ¬∃ valuation rows,
          Supports compiled.symbols.ordinal state.store clause args level valuation rows := by
        rintro ⟨valuation, rows, supports⟩
        obtain ⟨fires, wanted, _⟩ := fires_of_supports searchable shaped count supports isProvenance
        exact means rows fires wanted
      exact ⟨none, bindings, called, by simp [unsupported], by simp⟩
  | some report =>
      obtain ⟨rows, fires, wanted, rfl⟩ := means
      have supports := supports_of_fires shaped count isProvenance fires wanted
      refine ⟨some _, bindings, called, ⟨fun _ => ⟨_, rows, supports⟩, fun _ => rfl⟩, fun other same => ?_⟩
      exact ⟨_, rows, supports, (Option.some.inj same).symm⟩

/-- The rule for due tasks answers for tasks that are not done. -/
theorem derivation_answers_below_dueRule :
    ∃ plan, Plan.of backlog .provenance false = .ok plan ∧ dueRule.Searchable plan.program ∧
      plan.strategy = .provenance ∧ AnswersBelowLevel plan dueRule 0 .empty := by
  have searchable : dueRule.Searchable backlog := by
    refine ⟨rfl, ⟨by decide, by decide +kernel, by decide +kernel, fun op left right compared => ?_⟩, by decide +kernel,
      ?_, ?_, by decide⟩
    · obtain ⟨rfl, rfl, rfl⟩ : op = .lt ∧ left = .var "days" ∧ right = .constant (.number 5) := by
        simpa [dueRule] using compared
      decide
    · unfold Clause.Bound
      decide +kernel
    · unfold Clause.Declared
      decide +kernel
  exact ⟨_, rfl, searchable, rfl, derivation_answers_below searchable rfl 0 .empty⟩

end Lowering

end DatalogRam
