import DatalogRam.Proofs.Provenance.Subroutines

/-!
# The table of subroutines

A subroutine is added in place of one with the same name. That never happens: the rules of a relation have
consecutive numbers, the name of a subroutine tells the relation and the number of its rule and which of the two
subroutines it is, and so the table has exactly two entries for every explained rule.
-/

namespace DatalogRam

namespace Ram

/-! ## Insertion -/

variable {name : String} {subroutine : Subroutine} {subroutines : Subroutines}

/-- A subroutine with a new name comes to the others. -/
theorem Subroutines.perm_insert (isNew : name ∉ subroutines.map Prod.fst) :
    (subroutines.insert name subroutine).Perm ((name, subroutine) :: subroutines) := by
  induction subroutines with
  | nil => exact .refl _
  | cons entry rest ih =>
      rw [List.map_cons, List.mem_cons, not_or] at isNew
      rw [Subroutines.insert, if_neg isNew.1]
      split
      · exact .refl _
      · exact ((ih isNew.2).cons entry).trans (.swap _ _ _)

theorem Subroutines.mem_insert {entry : String × Subroutine} (member : entry ∈ subroutines.insert name subroutine) :
    entry = (name, subroutine) ∨ entry ∈ subroutines := by
  induction subroutines with
  | nil => exact .inl (List.mem_singleton.1 member)
  | cons first rest ih => grind [Subroutines.insert]

/-- Insertion keeps the order of the names. -/
theorem Subroutines.sorted_insert (sorted : subroutines.Pairwise fun entry other => entry.1 < other.1) :
    (subroutines.insert name subroutine).Pairwise fun entry other => entry.1 < other.1 := by
  induction subroutines with
  | nil => exact List.pairwise_singleton _ _
  | cons first rest ih =>
      obtain ⟨firstBelow, restSorted⟩ := List.pairwise_cons.1 sorted
      rw [Subroutines.insert]
      split
      next below =>
        refine List.pairwise_cons.2 ⟨fun entry member => ?_, sorted⟩
        rcases List.mem_cons.1 member with rfl | inRest
        · exact below
        · exact String.lt_trans below (firstBelow entry inRest)
      next notBelow =>
        split
        next same => exact List.pairwise_cons.2 ⟨fun entry member => same ▸ firstBelow entry member, restSorted⟩
        next different =>
          refine List.pairwise_cons.2 ⟨fun entry member => ?_, ih restSorted⟩
          rcases Subroutines.mem_insert member with rfl | inRest
          · have above : first.1 ≤ name := String.not_lt.1 notBelow
            refine Decidable.byContradiction fun notAbove => different ?_
            exact String.le_antisymm (String.not_lt.1 notAbove) above
          · exact firstBelow entry inRest

end Ram

namespace Lowering

open Ram

/-! ## Numbers of rules -/

/-- The rules of a relation with their positions. -/
def rulesOf (program : Program) (name : Name) : List (Clause × Nat) :=
  (program.clausesOf name).filter fun entry => !entry.1.isFact

/-- In a list with ascending keys, the number of keys below the one of an element is its position. -/
theorem map_length_below {α : Type} {key : α → Nat} {list : List α}
    (ascending : list.Pairwise fun first second => key first < key second) :
    list.map (fun element => (list.filter fun other => decide (key other < key element)).length) =
      List.range list.length := by
  induction list with
  | nil => rfl
  | cons first rest ih =>
      obtain ⟨below, restAscending⟩ := List.pairwise_cons.1 ascending
      have none : (first :: rest).filter (fun other => decide (key other < key first)) = [] := by
        rw [List.filter_eq_nil_iff]
        intro other member
        rw [decide_eq_true_eq]
        rcases List.mem_cons.1 member with rfl | inRest
        · exact Nat.lt_irrefl _
        · exact Nat.lt_asymm (below other inRest)
      have onward : rest.map (fun element =>
          ((first :: rest).filter fun other => decide (key other < key element)).length) =
            (List.range rest.length).map Nat.succ := by
        rw [← ih restAscending, List.map_map]
        refine List.map_congr_left fun element member => ?_
        rw [List.filter_cons, if_pos (decide_eq_true (below element member))]
        rfl
      rw [List.map_cons, none, onward, List.length_cons, List.range_succ_eq_map, List.length_nil]

theorem mem_rulesOf {program : Program} {name : Name} {entry : Clause × Nat} :
    entry ∈ rulesOf program name ↔ program.clauses[entry.2]? = some entry.1 ∧
      entry.1.head.relation = name ∧ entry.1.isFact = false := by
  rw [rulesOf, List.mem_filter, Program.mem_clausesOf, Bool.not_eq_true', and_assoc]

/-- The rules of a relation are numbered from one on, in the order of their declaration. -/
theorem map_ruleNumber (program : Program) (name : Name) :
    (rulesOf program name).map (ruleNumber program) = List.range' 1 (rulesOf program name).length := by
  have ascending : (rulesOf program name).Pairwise fun entry other => entry.2 < other.2 := by
    refine List.Pairwise.filter _ (List.Pairwise.filter _ ?_)
    rw [Program.numberedClauses, ← List.pairwise_map, List.zipIdx_map_snd]
    exact List.pairwise_lt_range'
  rw [List.range'_eq_map_range, ← map_length_below ascending, List.map_map]
  refine List.map_congr_left fun entry member => ?_
  rw [ruleNumber, (mem_rulesOf.1 member).2.1, Function.comp_apply, rulesOf, List.filter_filter, Nat.add_comm]
  simp only [Bool.and_comm]

/-- A relation has one rule of each number. -/
theorem rule_eq_of_ruleNumber {program : Program} {entry other : Clause × Nat}
    (isRule : program.clauses[entry.2]? = some entry.1 ∧ entry.1.isFact = false)
    (isOther : program.clauses[other.2]? = some other.1 ∧ other.1.isFact = false)
    (relation : entry.1.head.relation = other.1.head.relation)
    (number : ruleNumber program entry = ruleNumber program other) : entry = other := by
  have distinct : ((rulesOf program other.1.head.relation).map (ruleNumber program)).Nodup := by
    rw [map_ruleNumber]
    exact List.nodup_range'
  exact List.inj_on_of_nodup_map distinct (mem_rulesOf.2 ⟨isRule.1, relation, isRule.2⟩)
    (mem_rulesOf.2 ⟨isOther.1, rfl, isOther.2⟩) number

/-! ## Names -/

section Names

variable (program : Program) (entry : Clause × Nat)

/-- The label of a rule. -/
def ruleLabel : String :=
  explanationLabel entry.1 (ruleNumber program entry)

/-- The name of the subroutine that derives the rows of a rule. -/
def derivationName : String :=
  ruleLabel program entry ++ "_subproof"

/-- The name of the subroutine that decides the literals of a rule. -/
def decisionName : String :=
  ruleLabel program entry ++ "_negation_subproof"

end Names

variable {program : Program} {debugInfo : Bool} {plan : Plan} {compiled : Ram.Program}

/-- Different names of relations have different texts. -/
def DistinctTexts (program : Program) : Prop :=
  ∀ name ∈ program.relationNames, ∀ other ∈ program.relationNames, name.text = other.text → name = other

/-- A label belongs to one explained rule. -/
theorem ruleLabel_inj (texts : DistinctTexts program) {entry other : Clause × Nat}
    (isRule : entry ∈ describedRules program) (isOther : other ∈ describedRules program)
    (same : ruleLabel program entry = ruleLabel program other) : entry = other := by
  obtain ⟨atId, declared, notFact⟩ := mem_describedRules.1 isRule
  obtain ⟨atOther, otherDeclared, otherNotFact⟩ := mem_describedRules.1 isOther
  obtain ⟨text, number⟩ := explanationLabel_inj same
  exact rule_eq_of_ruleNumber ⟨atId, notFact⟩ ⟨atOther, otherNotFact⟩ (texts _ declared _ otherDeclared text) number

/-! ## Entries -/

/-- An entry of the table of subroutines: its name, its parameters and its code, if that is defined. -/
structure Entry where
  name : String
  parameters : List String
  code : Option Stmt

def Entry.of (entry : String × Subroutine) : Entry :=
  ⟨entry.1, entry.2.parameters, some entry.2.body.tree⟩

/-- The two entries of a rule. -/
def explanationEntries (ordinal : String → Int64) (plan : Plan) (entry : Clause × Nat) : List Entry :=
  let slots := Slots.ofClause entry.1
  [⟨derivationName plan.program entry, slots.names ++ [levelColumn], explanationCode ordinal plan entry.1 slots⟩,
    ⟨decisionName plan.program entry, slots.names, decisionCode ordinal plan entry.1 slots⟩]

/-- A rule that has a number is a rule of a declared relation. -/
theorem described_of_number {entry : Clause × Nat} (isRule : entry ∈ explainedRules plan.program) {number : Nat}
    (numbered : plan.clauseNumber entry.1 entry.2 = .ok number) :
    entry ∈ describedRules plan.program ∧ number = ruleNumber plan.program entry := by
  obtain ⟨atId, notFact, _⟩ := mem_explainedRules.1 isRule
  have declared : entry.1.head.relation ∈ plan.program.relationNames := by
    rw [Plan.clauseNumber] at numbered
    split at numbered
    next declares => exact Program.mem_relationNames_of_declares declares
    next => cases numbered
  refine ⟨mem_describedRules.2 ⟨atId, declared, notFact⟩, ?_⟩
  rw [clauseNumber_of_rule declared notFact] at numbered
  exact (Except.ok.inj numbered).symm

/-- What adding the two subroutines of a rule leaves in the table. -/
theorem entries_addExplanation {ordinal : String → Int64} {entry : Clause × Nat} {draft last : Draft}
    (isRule : entry ∈ explainedRules plan.program)
    (ran : outcome (addExplanation plan entry.1 entry.2) draft = (.ok (), last))
    (agrees : last.symbols.Agrees ordinal) :
    entry ∈ describedRules plan.program ∧ ∃ derivation decision,
      explanationEntries ordinal plan entry =
        [.of (derivationName plan.program entry, derivation), .of (decisionName plan.program entry, decision)] ∧
      last.subroutines =
        (draft.subroutines.insert (derivationName plan.program entry) derivation).insert
          (decisionName plan.program entry) decision := by
  obtain ⟨number, explanation, start, after, numbered, isExplanation, symbols, _, subroutines⟩ :=
    outcome_addExplanation ran
  obtain ⟨described, rfl⟩ := described_of_number isRule numbered
  obtain ⟨parameters, derives, decides⟩ := codes_of_explanation isExplanation (symbols ▸ agrees)
  refine ⟨described, explanation.derivation, explanation.decision, ?_, subroutines⟩
  rw [explanationEntries, derives (mem_explainedRules.1 isRule).2.1, decides, Entry.of, Entry.of, parameters,
    parameters_of_decision isExplanation]

/-- All rules whose subroutines were added are described. -/
theorem described_of_addExplanations {entries : List (Clause × Nat)} {draft last : Draft}
    (areRules : ∀ entry ∈ entries, entry ∈ explainedRules plan.program)
    (ran : outcome (entries.forM fun entry => addExplanation plan entry.1 entry.2) draft = (.ok (), last)) :
    ∀ entry ∈ entries, entry ∈ describedRules plan.program := by
  induction entries generalizing draft with
  | nil => exact fun entry member => absurd member List.not_mem_nil
  | cons first rest ih =>
      obtain ⟨_, middle, added, onward⟩ := of_outcome_bind ran
      obtain ⟨described, _⟩ :=
        entries_addExplanation (areRules first List.mem_cons_self) added (Symbols.agrees_ordinal _)
      exact List.forall_mem_cons.2
        ⟨described, ih (fun entry member => areRules entry (List.mem_cons_of_mem _ member)) onward⟩

/-- Where all names are new and different, the table has the two entries of each rule more, in order. -/
theorem table_of_addExplanations {ordinal : String → Int64} {entries : List (Clause × Nat)} {draft last : Draft}
    (areRules : ∀ entry ∈ entries, entry ∈ explainedRules plan.program)
    (ran : outcome (entries.forM fun entry => addExplanation plan entry.1 entry.2) draft = (.ok (), last))
    (agrees : last.symbols.Agrees ordinal)
    (areNew : (entries.flatMap (fun entry => [derivationName plan.program entry, decisionName plan.program entry]) ++
      draft.subroutines.map Prod.fst).Nodup)
    (sorted : draft.subroutines.Pairwise fun entry other => entry.1 < other.1) :
    (last.subroutines.Pairwise fun entry other => entry.1 < other.1) ∧
      (last.subroutines.map Entry.of).Perm
        (entries.flatMap (explanationEntries ordinal plan) ++ draft.subroutines.map Entry.of) := by
  induction entries generalizing draft with
  | nil =>
      cases ran
      exact ⟨sorted, .refl _⟩
  | cons first rest ih =>
      obtain ⟨_, middle, added, onward⟩ := of_outcome_bind ran
      have grows := grows_addExplanations onward
      obtain ⟨_, derivation, decision, code, subroutines⟩ :=
        entries_addExplanation (areRules first List.mem_cons_self) added (agrees.of_extends grows)
      rw [List.flatMap_cons, List.append_assoc, List.cons_append, List.cons_append, List.nil_append] at areNew
      obtain ⟨derivationApart, decisionNew⟩ := List.nodup_cons.1 areNew
      obtain ⟨decisionApart, restNew⟩ := List.nodup_cons.1 decisionNew
      have newDerivation : derivationName plan.program first ∉ draft.subroutines.map Prod.fst := fun member =>
        derivationApart (List.mem_cons_of_mem _ (List.mem_append_right _ member))
      have perm : middle.subroutines.Perm ((decisionName plan.program first, decision) ::
          (derivationName plan.program first, derivation) :: draft.subroutines) := by
        have inserted := @Subroutines.perm_insert _ derivation _ newDerivation
        rw [subroutines]
        refine (Subroutines.perm_insert fun member => ?_).trans (inserted.cons _)
        rcases List.mem_cons.1 ((inserted.map Prod.fst).mem_iff.1 member) with same | isOld
        · exact derivationApart (same ▸ List.mem_cons_self)
        · exact decisionApart (List.mem_append_right _ isOld)
      have middleNew : (rest.flatMap (fun entry =>
          [derivationName plan.program entry, decisionName plan.program entry]) ++
            middle.subroutines.map Prod.fst).Nodup := by
        refine (((perm.map Prod.fst).append_left _).trans ?_).nodup_iff.2 areNew
        simp only [List.map_cons]
        exact List.perm_middle.trans ((List.perm_middle.cons _).trans (.swap _ _ _))
      have middleSorted : middle.subroutines.Pairwise fun entry other => entry.1 < other.1 :=
        subroutines ▸ Subroutines.sorted_insert (Subroutines.sorted_insert sorted)
      obtain ⟨lastSorted, lastPerm⟩ :=
        ih (fun entry member => areRules entry (List.mem_cons_of_mem _ member)) onward middleNew middleSorted
      refine ⟨lastSorted, lastPerm.trans (((perm.map Entry.of).append_left _).trans ?_)⟩
      rw [List.flatMap_cons, code, List.append_assoc]
      exact List.perm_middle.trans ((List.perm_middle.cons _).trans (.swap _ _ _))

/-! ## The whole table -/

/-- The names of all subroutines of explained rules are different. -/
theorem nodup_names (texts : DistinctTexts program)
    (described : ∀ entry ∈ explainedRules program, entry ∈ describedRules program) :
    ((explainedRules program).flatMap fun entry =>
      [derivationName program entry, decisionName program entry]).Nodup := by
  have distinct : (explainedRules program).Nodup := by
    refine List.Nodup.filter _ ?_
    refine List.Nodup.of_map Prod.snd ?_
    rw [Program.numberedClauses, List.zipIdx_map_snd]
    exact List.nodup_range'
  refine List.nodup_flatMap.2 ⟨fun entry _ => ?_, ?_⟩
  · rw [List.nodup_cons, List.mem_singleton]
    exact ⟨subproof_ne_negation _ _ _ _, List.nodup_singleton _⟩
  · refine distinct.imp_of_mem fun {entry other} isRule isOther different => ?_
    have labels : ruleLabel program entry ≠ ruleLabel program other := fun same =>
      different (ruleLabel_inj texts (described entry isRule) (described other isOther) same)
    simp only [Function.onFun, List.disjoint_cons_left, List.mem_cons, List.not_mem_nil, or_false, not_or]
    exact ⟨⟨fun same => labels ((String.append_left_inj _).1 same), subproof_ne_negation _ _ _ _⟩,
      ⟨(subproof_ne_negation _ _ _ _).symm, fun same => labels ((String.append_left_inj _).1 same)⟩,
      List.disjoint_nil_left _⟩

/-- What explanation subroutines a program lowered for provenance has: the rules of every relation are numbered
one after the other, no two subroutines have the same name, and the table has the two entries of each explained rule
and no others, in the order of their names. -/
structure ExplainsRules (plan : Plan) (compiled : Ram.Program) : Prop where
  numbers : ∀ name ∈ plan.program.relationNames,
    (rulesOf plan.program name).map (fun entry => plan.clauseNumber entry.1 entry.2) =
      (List.range' 1 (rulesOf plan.program name).length).map .ok
  labelled : ∀ entry ∈ explainedRules plan.program,
    plan.clauseNumber entry.1 entry.2 = .ok (ruleNumber plan.program entry)
  derivations : ∀ entry ∈ explainedRules plan.program, ∀ other ∈ explainedRules plan.program,
    derivationName plan.program entry = derivationName plan.program other → entry = other
  decisions : ∀ entry ∈ explainedRules plan.program, ∀ other ∈ explainedRules plan.program,
    decisionName plan.program entry = decisionName plan.program other → entry = other
  apart : ∀ entry ∈ explainedRules plan.program, ∀ other ∈ explainedRules plan.program,
    derivationName plan.program entry ≠ decisionName plan.program other
  sorted : compiled.subroutines.Pairwise fun entry other => entry.1 < other.1
  table : (compiled.subroutines.map Entry.of).Perm
    ((explainedRules plan.program).flatMap (explanationEntries compiled.symbols.ordinal plan))

theorem subroutines_exact (texts : DistinctTexts program)
    (lowered : (lowerProgram program .provenance debugInfo).result = .ok compiled) :
    ∃ plan, Plan.of program .provenance debugInfo = .ok plan ∧ ExplainsRules plan compiled := by
  obtain ⟨plan, start, _, middle, _, later, last, planned, unwritten, ranEvaluation, ranInfos, added, symbols,
    subroutines, _⟩ := lowered_provenance lowered
  obtain ⟨_, rfl, _⟩ := scheduled_of planned
  have laterEmpty : later.subroutines = [] := by
    have kept := (@yields_evaluation (fun _ => 0) plan).subroutines start
    have alsoKept := (@yields_infos (fun _ => 0) plan).subroutines middle
    rw [ranEvaluation, unwritten.subroutines] at kept
    rwa [ranInfos, kept] at alsoKept
  have described := described_of_addExplanations (fun entry member => member) added
  have areNew := nodup_names texts described
  have agrees : last.symbols.Agrees compiled.symbols.ordinal := symbols ▸ Symbols.agrees_ordinal _
  obtain ⟨sorted, table⟩ := table_of_addExplanations (fun entry member => member) added agrees
    (by rwa [laterEmpty, List.map_nil, List.append_nil]) (by rw [laterEmpty]; exact .nil)
  refine ⟨plan, planned, ?_⟩
  constructor
  case numbers =>
    intro name declared
    rw [← map_ruleNumber, List.map_map]
    refine List.map_congr_left fun entry member => ?_
    obtain ⟨_, rfl, notFact⟩ := mem_rulesOf.1 member
    exact clauseNumber_of_rule declared notFact
  case labelled =>
    intro entry isRule
    obtain ⟨_, declared, notFact⟩ := mem_describedRules.1 (described entry isRule)
    exact clauseNumber_of_rule declared notFact
  case derivations =>
    intro entry isRule other isOther same
    exact ruleLabel_inj texts (described entry isRule) (described other isOther) ((String.append_left_inj _).1 same)
  case decisions =>
    intro entry isRule other isOther same
    exact ruleLabel_inj texts (described entry isRule) (described other isOther) ((String.append_left_inj _).1 same)
  case apart => exact fun entry _ other _ => subproof_ne_negation _ _ _ _
  case sorted => exact subroutines ▸ sorted
  case table =>
    rw [laterEmpty, List.map_nil, List.append_nil] at table
    exact subroutines ▸ table

/-- Paths, and a relation whose name looks like the label of the first rule for paths. -/
def relabelled : Program :=
  { reachability with
    relations := ⟨⟨["path_1"]⟩, [⟨"x", ⟨["number"]⟩⟩], .standard, []⟩ :: reachability.relations
    clauses := ⟨⟨⟨["path_1"]⟩, [.var "x"]⟩, [.positive ⟨["path"]⟩ [.var "x", .unnamed]]⟩ :: reachability.clauses }

/-- The labels `path_1`, `path_2` and `path_1_1` are different. -/
theorem subroutines_exact_relabelled :
    DistinctTexts relabelled ∧
      (explainedRules relabelled).map (ruleLabel relabelled) = ["path_1_1", "path_1", "path_2"] ∧
      ∃ compiled, (lowerProgram relabelled .provenance false).result = .ok compiled ∧
        ∃ plan, Plan.of relabelled .provenance false = .ok plan ∧ ExplainsRules plan compiled := by
  have texts : DistinctTexts relabelled := by
    unfold DistinctTexts
    decide +kernel
  obtain ⟨compiled, lowered⟩ :=
    exists_result (show (lowerProgram relabelled .provenance false).result.isOk by decide +kernel)
  exact ⟨texts, by decide +kernel, compiled, lowered, subroutines_exact texts lowered⟩

end Lowering

end DatalogRam
