import DatalogRam.Proofs.Lowering.DecisionWriting
import DatalogRam.Proofs.Lowering.Readable
import DatalogRam.Proofs.Query.Slots
import DatalogRam.Proofs.Ram.Leaves

/-!
# When a rule can be explained

The subroutines of a rule are written for its variables alone: each of them has a slot or stands for a level, and
aggregates have no place there. So of a rule that can be evaluated, the derivation can be written unless a level is
asked for as an argument of the head, and the decision can be written unless the body has an aggregate. No other
argument, and no relation, stands in the way.
-/

namespace DatalogRam.Lowering

open Ram

variable {ordinal : String → Int64} {plan : Plan} {slots : Slots} {clause : Clause}

/-! ## Redirecting -/

/-- A row with a slot, or of an erased variable, can be redirected. -/
theorem exists_redirected {tuple column : Nat} (inside : tuple < slots.rowCount) :
    ∃ result, (Expr.element tuple column).replace slots.redirect = .ok result := by
  have answer : ∃ node : ExprNode Expr, slots.redirect (.element tuple column) = .ok (some node) := by
    by_cases slotted : tuple < slots.size
    · exact ⟨_, redirect_slot slotted⟩
    · have erased : tuple - slots.size < slots.erased.length := by
        rw [Slots.rowCount] at inside
        omega
      rw [← Nat.add_sub_of_le (Nat.le_of_not_lt slotted)]
      exact ⟨_, redirect_erased erased⟩
  obtain ⟨node, answer⟩ := answer
  refine ⟨.ofNode node, ?_⟩
  simp only [Expr.replace, Expr.toNode, answer]
  rfl

mutual

/-- Code that was written under the sites of slots can be redirected. -/
theorem exists_replaced : ∀ (arg : Argument) {value : Expr}, valueCode ordinal slots.sites arg = some value →
    ∃ result, value.replace slots.redirect = .ok result
  | .var name, value, code => by
      obtain ⟨site, isSite, rfl⟩ := Option.map_eq_some_iff.1 code
      exact exists_redirected (tuple_lt_rowCount isSite)
  | .unnamed, value, code | .counter, value, code => by
      cases code
      exact ⟨_, rfl⟩
  | .constant constant, value, code => by
      cases code
      cases constant <;> exact ⟨_, rfl⟩
  | .aggregate function target body, value, code => by
      rw [valueCode, aggregate?_sites] at code
      cases code
  | .operator _ args, value, code | .external _ args, value, code | .record args, value, code => by
      obtain ⟨values, areValues, rfl⟩ := Option.map_eq_some_iff.1 code
      obtain ⟨results, replaced⟩ := exists_replacedAll args areValues
      simp only [Expr.replace, Slots.redirect, replaced]
      exact ⟨_, rfl⟩

theorem exists_replacedAll : ∀ (args : List Argument) {values : List Expr},
    valueCodes ordinal slots.sites args = some values →
      ∃ results, Expr.replaceAll slots.redirect values = .ok results
  | [], values, code => by
      cases code
      exact ⟨[], rfl⟩
  | arg :: args, values, code => by
      obtain ⟨first, others, isFirst, areOthers, rfl⟩ := valueCodes_cons_eq_some code
      obtain ⟨result, replaced⟩ := exists_replaced arg isFirst
      obtain ⟨results, replacedAll⟩ := exists_replacedAll args areOthers
      rw [Expr.replaceAll, replaced, replacedAll]
      exact ⟨_, rfl⟩

end

theorem isSome_redirectedCode_iff {arg : Argument} :
    (redirectedCode ordinal slots arg).isSome ↔ Argument.Readable slots.sites arg := by
  rw [← @isSome_valueCode_iff ordinal, redirectedCode]
  cases code : valueCode ordinal slots.sites arg with
  | none => simp
  | some value =>
      obtain ⟨result, replaced⟩ := exists_replaced arg code
      rw [Option.bind_eq_bind, Option.bind_some, replaced]
      exact iff_of_true rfl rfl

/-- A check for a row can be redirected if its values can. -/
theorem exists_replaced_existence {values results : List Expr} (relation : String) (auxiliary : Nat)
    (replaced : Expr.replaceAll slots.redirect values = .ok results) :
    ∃ result, (existence relation values auxiliary).replace slots.redirect = .ok result := by
  have wildcards : Expr.replaceAll slots.redirect (List.replicate auxiliary .undefined) =
      .ok (List.replicate auxiliary .undefined) := by
    induction auxiliary with
    | zero => rfl
    | succ count ih =>
        rw [List.replicate_succ, Expr.replaceAll, ih]
        rfl
  have all : Expr.replaceAll slots.redirect (values ++ List.replicate auxiliary .undefined) =
      .ok (results ++ List.replicate auxiliary .undefined) := by
    rw [Expr.replaceAll_append, replaced, wildcards]
    rfl
  refine ⟨.holds relation (results ++ List.replicate auxiliary .undefined), ?_⟩
  rw [existence, Cond.replace, all]
  rfl

/-! ## Variables of a clause -/

/-- Every variable of a clause has a site under its slots. -/
theorem isSome_definition_of_mem {name : String} (isVariable : name ∈ clauseVariables clause) :
    ((Slots.ofClause clause).sites.definition? name).isSome := by
  rw [definition?_sites, Option.isSome_map, List.isSome_idxOf?, List.mem_append]
  cases isLevel : isLevelVariable name with
  | true => exact .inr (mem_erased_ofClause isVariable isLevel)
  | false => exact .inl (mem_names_ofClause isVariable isLevel)

/-- Over the slots of its clause an argument can be read unless it has an aggregate. -/
theorem readable_slots_iff {arg : Argument} (within : arg.variables ⊆ clauseVariables clause) :
    Argument.Readable (Slots.ofClause clause).sites arg ↔ Argument.aggregates arg = [] := by
  constructor
  · intro readable
    refine List.eq_nil_iff_forall_not_mem.2 fun aggregate member => ?_
    have isSome := readable.aggregates aggregate member
    rw [aggregate?_sites] at isSome
    cases isSome
  · intro none
    refine ⟨fun name member => isSome_definition_of_mem (within (ownVariables_subset arg member)), ?_⟩
    rw [none]
    exact fun _ member => absurd member List.not_mem_nil

theorem readable_slots_all_iff {args : List Argument} (within : ∀ arg ∈ args, arg.variables ⊆ clauseVariables clause) :
    (∀ arg ∈ args, Argument.Readable (Slots.ofClause clause).sites arg) ↔ Argument.aggregatesOfAll args = [] := by
  rw [List.eq_nil_iff_forall_not_mem]
  constructor
  · intro readable aggregate member
    obtain ⟨arg, isArg, inArg⟩ := Argument.mem_aggregatesOfAll.1 member
    rw [(readable_slots_iff (within arg isArg)).1 (readable arg isArg)] at inArg
    exact absurd inArg List.not_mem_nil
  · intro none arg isArg
    refine (readable_slots_iff (within arg isArg)).2 (List.eq_nil_iff_forall_not_mem.2 fun aggregate member => ?_)
    exact none aggregate (Argument.mem_aggregatesOfAll.2 ⟨arg, isArg, member⟩)

theorem variables_subset_of_body {literal : Literal} (member : literal ∈ clause.body) :
    literal.variables ⊆ clauseVariables clause := fun _ isVariable =>
  List.mem_append_left _ (Literal.mem_variablesOfAll.2 ⟨literal, member, isVariable⟩)

theorem variables_subset_of_head {arg : Argument} (member : arg ∈ clause.head.args) :
    arg.variables ⊆ clauseVariables clause := fun _ isVariable =>
  List.mem_append_right _ (Argument.mem_variablesOfAll.2 ⟨arg, member, isVariable⟩)

theorem variables_subset_of_arg {args : List Argument} (within : Argument.variablesOfAll args ⊆ clauseVariables clause) :
    ∀ arg ∈ args, arg.variables ⊆ clauseVariables clause := fun arg member _ isVariable =>
  within (Argument.mem_variablesOfAll.2 ⟨arg, member, isVariable⟩)

/-! ## Decisions -/

theorem isSome_atomCheckCode_iff {relation : Name} {args : List Argument} :
    (atomCheckCode ordinal plan slots relation args).isSome ↔
      plan.program.declares relation = true ∧ ∀ arg ∈ args, Argument.Readable slots.sites arg := by
  rw [← isSome_relation, ← @isSome_valueCodes_iff ordinal, atomCheckCode]
  cases plan.program.relation? relation <;> cases valueCodes ordinal slots.sites args <;> simp

theorem exists_replaced_atomCheck {relation : Name} {args : List Argument} {condition : Cond}
    (code : atomCheckCode ordinal plan slots relation args = some condition) :
    ∃ result, condition.replace slots.redirect = .ok result := by
  obtain ⟨_, _, code⟩ := Option.bind_eq_some_iff.1 code
  obtain ⟨values, areValues, same⟩ := Option.bind_eq_some_iff.1 code
  cases same
  obtain ⟨results, replaced⟩ := exists_replacedAll args areValues
  exact exists_replaced_existence _ _ replaced

/-- Whatever condition decides a literal can be redirected. -/
theorem exists_replaced_decision {literal : Literal} {condition : Cond} {holds : Bool}
    (code : decisionConditionCode ordinal plan slots literal = some (some (condition, holds))) :
    ∃ result, condition.replace slots.redirect = .ok result := by
  cases literal with
  | positive relation args | negative relation args =>
      obtain ⟨check, isCheck, same⟩ := Option.map_eq_some_iff.1 code
      cases same
      exact exists_replaced_atomCheck isCheck
  | comparison op left right =>
      rw [decisionConditionCode] at code
      split at code
      · obtain ⟨found, isFound, same⟩ := Option.map_eq_some_iff.1 code
        obtain ⟨first, isFirst, isFound⟩ := Option.bind_eq_some_iff.1 isFound
        obtain ⟨second, isSecond, isFound⟩ := Option.bind_eq_some_iff.1 isFound
        cases isFound
        cases same
        obtain ⟨result, replaced⟩ := exists_replaced left isFirst
        obtain ⟨other, alsoReplaced⟩ := exists_replaced right isSecond
        rw [Cond.replace, replaced]
        simp only [bind, Except.bind, alsoReplaced]
        exact ⟨_, rfl⟩
      · cases code
      · intro _ _ same
        cases same
      · intro _ _ same
        cases same
  | truth value =>
      cases value <;> cases code <;> exact ⟨_, rfl⟩

/-- The decision of a literal of a rule that can be evaluated is written unless the literal has an aggregate. -/
theorem isSome_branchCode_iff {literal : Literal} (readable : Clause.Readable plan.program clause)
    (member : literal ∈ clause.body) :
    (branchCode ordinal plan (Slots.ofClause clause) literal).isSome ↔ Literal.aggregates literal = [] := by
  have redirected : (branchCode ordinal plan (Slots.ofClause clause) literal).isSome =
      (decisionConditionCode ordinal plan (Slots.ofClause clause) literal).isSome := by
    rw [branchCode]
    cases code : decisionConditionCode ordinal plan (Slots.ofClause clause) literal with
    | none => rfl
    | some found =>
        cases found with
        | none => rfl
        | some pair =>
            obtain ⟨result, replaced⟩ := @exists_replaced_decision _ _ _ _ pair.1 pair.2 code
            simp only [Option.bind_eq_bind, Option.bind_some, replaced]
            rfl
  rw [redirected]
  cases literal with
  | positive relation args =>
      have declared := readable.declared ⟨relation, args⟩ (Clause.mem_positiveAtoms.2 member)
      rw [decisionConditionCode, Option.isSome_map, isSome_atomCheckCode_iff, and_iff_right declared]
      exact readable_slots_all_iff (variables_subset_of_arg (variables_subset_of_body member))
  | negative relation args =>
      have declared := (readable.constraints _ member).1
      rw [decisionConditionCode, Option.isSome_map, isSome_atomCheckCode_iff, and_iff_right declared]
      exact readable_slots_all_iff (variables_subset_of_arg (variables_subset_of_body member))
  | comparison op left right =>
      have both := variables_subset_of_body member
      rw [decisionConditionCode]
      · split
        · next empty =>
            have none : Literal.aggregates (.comparison op left right) = [] := List.isEmpty_iff.1 empty
            obtain ⟨leftNone, rightNone⟩ := List.append_eq_nil_iff.1 none
            refine iff_of_true ?_ none
            rw [Option.isSome_map, isSome_constraintCode_iff]
            exact ⟨(readable_slots_iff fun _ isVariable => both (List.mem_append_left _ isVariable)).2 leftNone,
              (readable_slots_iff fun _ isVariable => both (List.mem_append_right _ isVariable)).2 rightNone⟩
        · next some => exact iff_of_false Bool.false_ne_true fun none => some (List.isEmpty_iff.2 none)
      · intro _ _ same
        cases same
      · intro _ _ same
        cases same
  | truth value => cases value <;> exact iff_of_true rfl rfl

theorem isSome_decisionCode_iff (readable : Clause.Readable plan.program clause) :
    (decisionCode ordinal plan clause (Slots.ofClause clause)).isSome ↔
      ∀ literal ∈ clause.body, Literal.aggregates literal = [] := by
  have branches : (clause.constraintsLast.filterMapM (branchCode ordinal plan (Slots.ofClause clause))).isSome ↔
      ∀ literal ∈ clause.body, Literal.aggregates literal = [] := by
    have same (literal : Literal) : literal ∈ clause.constraintsLast ↔ literal ∈ clause.body := by
      rw [Clause.constraintsLast, Clause.constraints, List.mem_append, List.mem_filter, List.mem_filter]
      cases literal.isConstraint <;> simp
    rw [isSome_filterMapM_iff]
    simp only [same]
    exact forall₂_congr fun literal member => isSome_branchCode_iff readable member
  rw [← branches, decisionCode]
  cases clause.constraintsLast.filterMapM (branchCode ordinal plan (Slots.ofClause clause)) <;> simp

/-! ## Derivations -/

/-- What is wanted for an argument of the head is known unless the argument is a level. -/
theorem isSome_wantedCode_iff {arg : Argument} (member : arg ∈ clause.head.args) :
    (wantedCode ordinal (Slots.ofClause clause) arg).isSome ↔
      ∀ name, arg = .var name → isLevelVariable name = false := by
  have ofOther (notVar : ∀ name, arg ≠ .var name)
      (code : wantedCode ordinal (Slots.ofClause clause) arg =
        if (Argument.aggregates arg).isEmpty then (redirectedCode ordinal (Slots.ofClause clause) arg).map some
        else some none) :
      (wantedCode ordinal (Slots.ofClause clause) arg).isSome ↔
        ∀ name, arg = .var name → isLevelVariable name = false := by
    refine iff_of_true ?_ fun name same => absurd same (notVar name)
    rw [code]
    split
    · next empty =>
        rw [Option.isSome_map, isSome_redirectedCode_iff, readable_slots_iff (variables_subset_of_head member)]
        exact List.isEmpty_iff.1 empty
    · rfl
  cases arg with
  | var name =>
      have isVariable : name ∈ clauseVariables clause :=
        variables_subset_of_head member (List.mem_singleton.2 rfl)
      rw [wantedCode, Option.isSome_map, Slots.slot?, List.isSome_idxOf?]
      constructor
      · rintro slotted _ same
        cases same
        exact Bool.eq_false_iff.2 fun isLevel => not_mem_names_of_level isLevel slotted
      · exact fun notLevel => mem_names_ofClause isVariable (notLevel name rfl)
  | unnamed | constant => exact iff_of_true rfl fun _ same => by cases same
  | operator | external | aggregate | record | counter => exact ofOther (fun _ same => by cases same) rfl

theorem isSome_matchHeadCode_iff {arg : Argument} (member : arg ∈ clause.head.args) {frame : Frame}
    (readable : Argument.Readable frame.sites arg) :
    (matchHeadCode ordinal frame (Slots.ofClause clause) arg).isSome ↔
      ∀ name, arg = .var name → isLevelVariable name = false := by
  rw [← @isSome_wantedCode_iff ordinal clause arg member, matchHeadCode]
  cases wantedCode ordinal (Slots.ofClause clause) arg with
  | none => rfl
  | some wanted =>
      rw [Option.bind_eq_bind, Option.bind_some]
      cases wanted with
      | none => rfl
      | some wanted =>
          rw [compareWantedCode, Option.isSome_map, isSome_valueCode_iff]
          exact iff_of_true readable rfl

/-- The derivation of a rule that can be evaluated is written unless its head asks for a level. -/
theorem isSome_explanationCode_iff (lowerable : Clause.Lowerable plan.program clause) (isRule : clause.isFact = false) :
    (explanationCode ordinal plan clause (Slots.ofClause clause)).isSome ↔
      ∀ name, .var name ∈ clause.head.args → isLevelVariable name = false := by
  obtain ⟨declared, parts⟩ := lowerable
  rw [isRule, if_neg Bool.false_ne_true] at parts
  obtain ⟨readable, headReadable⟩ := parts
  have negated : (clause.negatedAtoms.mapM fun atom =>
      valueCodes ordinal (clauseFrame clause).sites atom.args).isSome := by
    refine isSome_mapM fun atom member => isSome_valueCodes_iff.2 ?_
    exact (readable.constraints _ (Clause.mem_negatedAtoms.1 member)).2
  have head : (clause.head.args.filterMapM (matchHeadCode ordinal (clauseFrame clause) (Slots.ofClause clause))).isSome ↔
      ∀ name, .var name ∈ clause.head.args → isLevelVariable name = false := by
    rw [isSome_filterMapM_iff]
    constructor
    · intro each name member
      exact (isSome_matchHeadCode_iff member (headReadable _ member)).1 (each _ member) name rfl
    · intro levels arg member
      refine (isSome_matchHeadCode_iff member (headReadable arg member)).2 fun name same => ?_
      exact levels name (same ▸ member)
  have answer : (answerCode ordinal plan clause (clauseFrame clause) (Slots.ofClause clause)).isSome ↔
      ∀ name, .var name ∈ clause.head.args → isLevelVariable name = false := by
    obtain ⟨values, areValues⟩ := Option.isSome_iff_exists.1 negated
    rw [← head, answerCode, areValues]
    cases clause.head.args.filterMapM (matchHeadCode ordinal (clauseFrame clause) (Slots.ofClause clause)) <;> simp
  rw [← answer, explanationCode]
  obtain ⟨relation, found⟩ := Option.isSome_iff_exists.1 declared
  rw [found, Option.bind_eq_bind, Option.bind_some, isSome_ruleCode_iff, and_iff_right readable]

end DatalogRam.Lowering
