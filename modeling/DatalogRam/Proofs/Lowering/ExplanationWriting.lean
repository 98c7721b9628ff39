import DatalogRam.Lowering.Unit
import DatalogRam.Proofs.Lowering.DecisionWriting
import DatalogRam.Proofs.Lowering.QueryWriting

/-!
# Writing explanations

The subroutines of a rule are written after the evaluation code. Writing them keeps all symbols at their places,
and touches the subroutines of the draft only by adding the two of each rule.
-/

namespace DatalogRam.Lowering

open Ram

variable {plan : Plan}

/-- Writing an explanation keeps all symbols at their places and all subroutines as they are. -/
theorem keeps_derivation (clause : Clause) (id : Nat) (slots : Slots) :
    Keeps (lowerComplete plan clause id (.explanation slots)) := by
  rw [lowerComplete, lowerClause]
  refine (@Writes.report (fun _ => 0) _ _ _).toKeeps.bind fun _ => ?_
  refine (Keeps.lift _).bind fun _ => ?_
  split
  · exact (@writes_fact (fun _ => 0) plan clause id).toKeeps.bind fun statement => Keeps.inArena _
  · exact (@writes_rule (fun _ => 0) plan clause id (.explanation slots) .complete _ fun frame =>
      writes_answer clause frame slots).toKeeps.bind fun statement => Keeps.inArena _

/-- Writing the derivation of a rule gives the query that explains it. -/
theorem writes_derivation {ordinal : String → Int64} (clause : Clause) (id : Nat) (slots : Slots)
    (isRule : clause.isFact = false) :
    Writes ordinal Placed.tree (lowerComplete plan clause id (.explanation slots))
      (explanationCode ordinal plan clause slots) :=
  (Writes.report _ _ _).andThen (writes_explanation clause id slots isRule)

theorem keeps_explanation (plan : Plan) (clause : Clause) (id : Nat) : Keeps (lowerExplanation plan clause id) := by
  rw [lowerExplanation]
  refine (@Writes.report (fun _ => 0) _ _ _).toKeeps.bind fun _ => ?_
  refine (keeps_derivation clause id _).bind fun derivation => ?_
  exact (@writes_decision (fun _ => 0) plan clause _).toKeeps.bind fun decision => Keeps.pure _

/-- The two subroutines of a rule have its query and its decision for their code. -/
theorem codes_of_explanation {ordinal : String → Int64} {clause : Clause} {id : Nat} {explanation : Explanation}
    {start after : Draft} (ran : outcome (lowerExplanation plan clause id) start = (.ok explanation, after))
    (agrees : after.symbols.Agrees ordinal) :
    explanation.derivation.parameters = (Slots.ofClause clause).names ++ [levelColumn] ∧
      (clause.isFact = false →
        explanationCode ordinal plan clause (Slots.ofClause clause) = some explanation.derivation.body.tree) ∧
      decisionCode ordinal plan clause (Slots.ofClause clause) = some explanation.decision.body.tree := by
  rw [lowerExplanation] at ran
  obtain ⟨_, reported, _, afterReport⟩ := of_outcome_bind ran
  obtain ⟨derivation, middle, isDerivation, afterDerivation⟩ := of_outcome_bind afterReport
  obtain ⟨decision, last, isDecision, finished⟩ := of_outcome_bind afterDerivation
  cases finished
  have decides := (@writes_decision ordinal plan clause (Slots.ofClause clause)).gives middle
  have grows := (@writes_decision ordinal plan clause (Slots.ofClause clause)).symbols middle
  rw [isDecision] at decides grows
  refine ⟨rfl, fun isRule => ?_, (decides agrees).symm⟩
  have derives := (@writes_derivation plan ordinal clause id (Slots.ofClause clause) isRule).gives reported
  rw [isDerivation] at derives
  exact (derives (agrees.of_extends grows)).symm

theorem parameters_of_decision {clause : Clause} {id : Nat} {explanation : Explanation} {start after : Draft}
    (ran : outcome (lowerExplanation plan clause id) start = (.ok explanation, after)) :
    explanation.decision.parameters = (Slots.ofClause clause).names := by
  rw [lowerExplanation] at ran
  obtain ⟨_, _, _, afterReport⟩ := of_outcome_bind ran
  obtain ⟨_, _, _, afterDerivation⟩ := of_outcome_bind afterReport
  obtain ⟨_, _, _, finished⟩ := of_outcome_bind afterDerivation
  cases finished
  rfl

/-! ## The names of subroutines -/

/-- Where two texts end in a mark and a part without the mark, they agree before and behind it. -/
theorem append_cons_inj {α : Type} {mark : α} {first second start other : List α} (notFirst : mark ∉ first)
    (notSecond : mark ∉ second) (same : start ++ mark :: first = other ++ mark :: second) :
    start = other ∧ first = second := by
  rcases List.append_eq_append_iff.1 same with ⟨between, rfl, rest⟩ | ⟨between, rfl, rest⟩
  · cases between with
    | nil =>
        rw [List.nil_append] at rest
        exact ⟨(List.append_nil _).symm, (List.cons.inj rest).2⟩
    | cons letter more =>
        rw [List.cons_append] at rest
        refine absurd ?_ notFirst
        rw [(List.cons.inj rest).2]
        simp
  · cases between with
    | nil =>
        rw [List.nil_append] at rest
        exact ⟨List.append_nil _, (List.cons.inj rest).2.symm⟩
    | cons letter more =>
        rw [List.cons_append] at rest
        refine absurd ?_ notSecond
        rw [(List.cons.inj rest).2]
        simp

theorem toList_explanationLabel (clause : Clause) (number : Nat) :
    (explanationLabel clause number).toList =
      clause.head.relation.text.toList ++ '_' :: Nat.toDigits 10 number := by
  rw [explanationLabel]
  simp

/-- Numbers are told apart by their digits. -/
theorem toDigits_inj {number count : Nat} (same : Nat.toDigits 10 number = Nat.toDigits 10 count) : number = count := by
  have equal := congrArg (fun digits => Nat.ofDigitChars 10 digits 0) same
  simpa only [Nat.ofDigitChars_toDigits (b := 10) (by decide) (by decide)] using equal

/-- A label tells the relation and the number of a rule. -/
theorem explanationLabel_inj {clause other : Clause} {number count : Nat}
    (same : explanationLabel clause number = explanationLabel other count) :
    clause.head.relation.text = other.head.relation.text ∧ number = count := by
  have letters := congrArg String.toList same
  rw [toList_explanationLabel, toList_explanationLabel] at letters
  obtain ⟨text, digits⟩ :=
    append_cons_inj Nat.underscore_not_in_toDigits Nat.underscore_not_in_toDigits letters
  exact ⟨String.toList_inj.1 text, toDigits_inj digits⟩

/-- The two subroutines of rules have different names. -/
theorem subproof_ne_negation (clause other : Clause) (number count : Nat) :
    explanationLabel clause number ++ "_subproof" ≠ explanationLabel other count ++ "_negation_subproof" := by
  intro same
  have split : explanationLabel other count ++ "_negation_subproof" =
      (explanationLabel other count ++ "_negation") ++ "_subproof" := by
    rw [String.append_assoc]
    rfl
  rw [split, String.append_left_inj] at same
  have letters := congrArg String.toList same
  rw [toList_explanationLabel, String.toList_append] at letters
  have negation : "_negation".toList = '_' :: "negation".toList := by decide
  rw [negation] at letters
  have digits := (append_cons_inj Nat.underscore_not_in_toDigits (by decide) letters).2
  have isDigit := Nat.isDigit_of_mem_toDigits (b := 10) (n := number) (c := 'n') (by decide) (by decide)
    (by rw [digits]; decide)
  exact absurd isDigit (by decide)

/-- What a look-up sees after a subroutine was added. -/
theorem lookup_insert (name other : String) (subroutine : Subroutine) (subroutines : Subroutines) :
    (subroutines.insert name subroutine).lookup other =
      if other = name then some subroutine else subroutines.lookup other := by
  induction subroutines with
  | nil => grind [Subroutines.insert]
  | cons entry rest ih => grind [Subroutines.insert]

/-! ## Adding subroutines -/

variable {clause : Clause} {id : Nat} {draft last : Draft}

/-- What adding the subroutines of a rule leaves behind. -/
theorem outcome_addExplanation (ran : outcome (addExplanation plan clause id) draft = (.ok (), last)) :
    ∃ number explanation start after, plan.clauseNumber clause id = .ok number ∧
      outcome (lowerExplanation plan clause id) start = (.ok explanation, after) ∧
      last.symbols = after.symbols ∧ after.symbols.Extends draft.symbols ∧
      last.subroutines =
        (draft.subroutines.insert (explanationLabel clause number ++ "_subproof") explanation.derivation).insert
          (explanationLabel clause number ++ "_negation_subproof") explanation.decision := by
  rw [addExplanation] at ran
  obtain ⟨number, _, isNumber, afterNumber⟩ := of_outcome_bind ran
  obtain ⟨_, start, reported, afterReport⟩ := of_outcome_bind afterNumber
  obtain ⟨explanation, after, isExplanation, added⟩ := of_outcome_bind afterReport
  cases found : plan.clauseNumber clause id with
  | error error =>
      rw [found] at isNumber
      cases isNumber
  | ok value =>
      rw [found] at isNumber
      cases isNumber
      have startSymbols : start.symbols = draft.symbols := by
        cases reported
        rfl
      have startSubroutines : start.subroutines = draft.subroutines := by
        cases reported
        rfl
      have grows := (keeps_explanation plan clause id).symbols start
      have same := (keeps_explanation plan clause id).subroutines start
      rw [isExplanation] at grows same
      have isLast : last = { after with
          subroutines :=
            (after.subroutines.insert (explanationLabel clause number ++ "_subproof") explanation.derivation).insert
              (explanationLabel clause number ++ "_negation_subproof") explanation.decision } :=
        (congrArg Prod.snd added).symm
      rw [← startSymbols, ← startSubroutines, ← same, isLast]
      exact ⟨number, explanation, start, after, rfl, isExplanation, rfl, grows, rfl⟩

/-- A statement is the query that explains a rule, or it decides the literals of the rule. This does not depend on the
ordinals of texts that are not in the table of symbols. -/
def Explains (symbols : Symbols) (plan : Plan) (clause : Clause) (statement : Stmt) : Prop :=
  (clause.isFact = false → ∀ ordinal, symbols.Agrees ordinal →
      explanationCode ordinal plan clause (Slots.ofClause clause) = some statement) ∨
    ∀ ordinal, symbols.Agrees ordinal → decisionCode ordinal plan clause (Slots.ofClause clause) = some statement

theorem grows_addExplanations {entries : List (Clause × Nat)}
    (ran : outcome (entries.forM fun entry => addExplanation plan entry.1 entry.2) draft = (.ok (), last)) :
    last.symbols.Extends draft.symbols := by
  induction entries generalizing draft with
  | nil =>
      cases ran
      exact Symbols.Extends.refl _
  | cons entry rest ih =>
      obtain ⟨_, middle, first, onward⟩ := of_outcome_bind ran
      obtain ⟨_, _, _, after, _, _, symbols, grows, _⟩ := outcome_addExplanation first
      rw [← symbols] at grows
      exact (ih onward).trans grows

/-- What all subroutines of rules have in common holds of those that are added. -/
theorem of_addExplanations {holds : Stmt → Prop} {entries : List (Clause × Nat)}
    (each : ∀ entry ∈ entries, ∀ statement, Explains last.symbols plan entry.1 statement → holds statement)
    (ran : outcome (entries.forM fun entry => addExplanation plan entry.1 entry.2) draft = (.ok (), last))
    (before : ∀ name subroutine, draft.subroutines.lookup name = some subroutine → holds subroutine.body.tree) :
    ∀ name subroutine, last.subroutines.lookup name = some subroutine → holds subroutine.body.tree := by
  induction entries generalizing draft with
  | nil =>
      cases ran
      exact before
  | cons entry rest ih =>
      obtain ⟨_, middle, first, onward⟩ := of_outcome_bind ran
      obtain ⟨number, explanation, start, after, _, isExplanation, symbols, _, subroutines⟩ :=
        outcome_addExplanation first
      have grows : last.symbols.Extends after.symbols := symbols ▸ grows_addExplanations onward
      have codes (ordinal : String → Int64) (agrees : last.symbols.Agrees ordinal) :=
        (codes_of_explanation isExplanation (agrees.of_extends grows)).2
      refine ih (fun other member => each other (List.mem_cons_of_mem _ member)) onward ?_
      intro name subroutine found
      rw [subroutines, lookup_insert, lookup_insert] at found
      split at found
      · cases found
        exact each entry List.mem_cons_self _ (.inr fun ordinal agrees => (codes ordinal agrees).2)
      · split at found
        · cases found
          exact each entry List.mem_cons_self _ (.inl fun isRule ordinal agrees => (codes ordinal agrees).1 isRule)
        · exact before name subroutine found

/-- The draft has the subroutine that derives rows of a rule. -/
def HasDerivation (plan : Plan) (clause : Clause) (id number : Nat) (draft : Draft) : Prop :=
  ∃ explanation start after, outcome (lowerExplanation plan clause id) start = (.ok explanation, after) ∧
    draft.symbols.Extends after.symbols ∧
    draft.subroutines.lookup (explanationLabel clause number ++ "_subproof") = some explanation.derivation

/-- Adding subroutines of rules with other labels keeps the subroutine of a rule. -/
theorem HasDerivation.step {other : Clause} {otherId number : Nat}
    (numbered : plan.clauseNumber clause id = .ok number)
    (only : ∀ count, plan.clauseNumber other otherId = .ok count →
      explanationLabel other count = explanationLabel clause number → (other, otherId) = (clause, id))
    (ran : outcome (addExplanation plan other otherId) draft = (.ok (), last))
    (before : (other, otherId) = (clause, id) ∨ HasDerivation plan clause id number draft) :
    HasDerivation plan clause id number last := by
  obtain ⟨count, explanation, start, after, isCount, isExplanation, symbols, grows, subroutines⟩ :=
    outcome_addExplanation ran
  have notDecision := subproof_ne_negation clause other number count
  rw [HasDerivation, subroutines, symbols]
  by_cases same : (other, otherId) = (clause, id)
  · cases same
    rw [numbered] at isCount
    cases isCount
    refine ⟨explanation, start, after, isExplanation, Symbols.Extends.refl _, ?_⟩
    rw [lookup_insert, if_neg notDecision, lookup_insert, if_pos rfl]
  · obtain ⟨earlier, begin, middle, isEarlier, extends', found⟩ := before.resolve_left same
    refine ⟨earlier, begin, middle, isEarlier, grows.trans extends', ?_⟩
    have different : explanationLabel clause number ++ "_subproof" ≠ explanationLabel other count ++ "_subproof" :=
      fun equal => same (only count isCount ((String.append_left_inj _).1 equal).symm)
    rw [lookup_insert, if_neg notDecision, lookup_insert, if_neg different, found]

/-- After the subroutines of several rules were added, there is the one of each rule whose label no other rule
has. -/
theorem hasDerivation_of_addExplanations {entries : List (Clause × Nat)} {number : Nat}
    (numbered : plan.clauseNumber clause id = .ok number)
    (only : ∀ entry ∈ entries, ∀ count, plan.clauseNumber entry.1 entry.2 = .ok count →
      explanationLabel entry.1 count = explanationLabel clause number → entry = (clause, id))
    (ran : outcome (entries.forM fun entry => addExplanation plan entry.1 entry.2) draft = (.ok (), last))
    (before : (clause, id) ∈ entries ∨ HasDerivation plan clause id number draft) :
    HasDerivation plan clause id number last := by
  induction entries generalizing draft with
  | nil =>
      cases ran
      exact before.resolve_left (List.not_mem_nil)
  | cons entry rest ih =>
      obtain ⟨_, middle, first, onward⟩ := of_outcome_bind ran
      have step (known : entry = (clause, id) ∨ HasDerivation plan clause id number draft) :
          HasDerivation plan clause id number middle :=
        HasDerivation.step numbered (only entry List.mem_cons_self) first known
      refine ih (fun other member => only other (List.mem_cons_of_mem _ member)) onward ?_
      rcases before with member | known
      · rcases List.mem_cons.1 member with rfl | inRest
        · exact .inr (step (.inl rfl))
        · exact .inl inRest
      · exact .inr (step (.inr known))

end DatalogRam.Lowering
