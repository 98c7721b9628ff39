import DatalogRam.Proofs.Analysis.Dependencies
import DatalogRam.Proofs.Lowering.Coverage
import DatalogRam.Proofs.Lowering.Lowerable
import DatalogRam.Proofs.Lowering.Programs

/-!
# Undeclared relations

Lowering a clause requires every relation that the clause names to be declared: that of its head, those of its atoms
and those of the atoms in its aggregates, at any depth. A program is lowered clause by clause, though, and there are
two ways for a clause to be passed over. A clause whose head is not declared belongs to no stratum. A clause that is
recursive only by the types of attributes is left to the loop of its stratum, which may not exist. Explanations under
provenance are written for all rules but those that fill info relations, so they come to such clauses as well.
-/

namespace DatalogRam

/-- A clause names a relation: it is that of the head, or an argument of the head or a literal of the body mentions
it. -/
def Clause.Names (clause : Clause) (name : Name) : Prop :=
  name = clause.head.relation ∨ (∃ arg ∈ clause.head.args, arg.Mentions name) ∨
    ∃ literal ∈ clause.body, literal.Mentions name

/-- A positive body atom has a declared relation that depends, directly or through others, on that of the head. -/
def Program.ReadsBack (program : Program) (clause : Clause) : Prop :=
  ∃ atom ∈ clause.positiveAtoms, atom.relation ∈ program.relationNames ∧
    Relation.ReflTransGen program.DependsOn atom.relation clause.head.relation

namespace Lowering

open Ram Analysis

/-- Lowering a program comes to a clause. -/
def ComesTo (program : Program) (strategy : Strategy) (clause : Clause) : Prop :=
  clause.head.relation ∈ program.relationNames ∧
      (isRecursive program clause = true → program.ReadsBack clause) ∨
    strategy = .provenance ∧ clause.isFact = false ∧ isInfoName clause.head.relation = false

/-! ## Relations named by a clause that can be read -/

/-- The atom of a literal is of a declared relation, and its aggregates are among given ones. -/
structure Literal.Settled (program : Program) (known : List Aggregate) (literal : Literal) : Prop where
  declared : ∀ atom ∈ literal.atom?, program.declares atom.relation = true
  aggregates : ∀ aggregate ∈ Literal.aggregates literal, aggregate ∈ known

/-- Aggregates within given ones are among them, and all their atoms are of declared relations. -/
structure Settles (program : Program) (known : List Aggregate) : Prop where
  literals : ∀ aggregate ∈ known, ∀ literal ∈ aggregate.body, Literal.Settled program known literal
  targets : ∀ aggregate ∈ known, ∀ target ∈ aggregate.target, ∀ inner ∈ Argument.aggregates target, inner ∈ known

variable {program : Program} {known : List Aggregate} {name : Name}

mutual

/-- An argument whose aggregates are settled mentions only declared relations. -/
theorem Settles.argument (settles : Settles program known) {arg : Argument} :
    arg.Mentions name → (∀ aggregate ∈ Argument.aggregates arg, aggregate ∈ known) → program.declares name = true
  | .operator member mentions, inside | .external member mentions, inside | .record member mentions, inside =>
      settles.argument mentions fun aggregate isInner =>
        inside aggregate (Argument.mem_aggregatesOfAll.2 ⟨_, member, isInner⟩)
  | .body member mentions, inside =>
      settles.literal mentions (settles.literals _ (inside _ (List.mem_singleton.2 rfl)) _ member)
  | .target mentions, inside =>
      settles.argument mentions (settles.targets _ (inside _ (List.mem_singleton.2 rfl)) _ rfl)

/-- A settled literal mentions only declared relations. -/
theorem Settles.literal (settles : Settles program known) {literal : Literal} :
    literal.Mentions name → Literal.Settled program known literal → program.declares name = true
  | .positive, settled | .negative, settled => settled.declared _ rfl
  | .inPositive member mentions, settled | .inNegative member mentions, settled =>
      settles.argument mentions fun aggregate isInner =>
        settled.aggregates aggregate (Argument.mem_aggregatesOfAll.2 ⟨_, member, isInner⟩)
  | .inLeft mentions, settled =>
      settles.argument mentions fun aggregate isInner => settled.aggregates aggregate (List.mem_append_left _ isInner)
  | .inRight mentions, settled =>
      settles.argument mentions fun aggregate isInner => settled.aggregates aggregate (List.mem_append_right _ isInner)

end

theorem aggregates_innerSites (tuple : Nat) (sites : Sites) (args : List (Argument × Nat)) :
    (innerSites tuple sites args).aggregates = sites.aggregates := by
  induction args generalizing sites with
  | nil => rfl
  | cons entry rest ih =>
      rw [innerSites]
      split
      · exact ih _
      · exact ih _

/-- All aggregates in the arguments of an aggregate's atom are known outside. -/
theorem aggregate?_of_readsArguments {tuple : Nat} {sites : Sites} {args : List (Argument × Nat)}
    (reads : ReadsArguments tuple sites args) :
    ∀ entry ∈ args, ∀ aggregate ∈ Argument.aggregates entry.1, (sites.aggregate? aggregate).isSome := by
  induction args generalizing sites with
  | nil => exact fun _ member => absurd member List.not_mem_nil
  | cons entry rest ih =>
      rw [ReadsArguments] at reads
      cases introduced : introduced? sites entry.1 with
      | some name =>
          rw [introduced] at reads
          refine List.forall_mem_cons.2
            ⟨fun aggregate member => ?_, @ih (sites.addVariable name ⟨tuple, entry.2⟩) reads⟩
          rw [introduced?_eq_some introduced] at member
          exact absurd member List.not_mem_nil
      | none =>
          rw [introduced] at reads
          exact List.forall_mem_cons.2 ⟨reads.1.aggregates, ih reads.2⟩

/-- The aggregates of a literal that can be tested are known. -/
theorem aggregate?_of_readable {sites : Sites} {literal : Literal} (readable : Literal.Readable program sites literal)
    (isTest : literal.positiveAtom? = none) :
    ∀ aggregate ∈ Literal.aggregates literal, (sites.aggregate? aggregate).isSome := by
  intro aggregate member
  cases literal with
  | positive => cases isTest
  | negative relation args =>
      obtain ⟨arg, isArg, inArg⟩ := Argument.mem_aggregatesOfAll.1 member
      exact (readable.2 arg isArg).aggregates aggregate inArg
  | comparison op left right =>
      rcases List.mem_append.1 member with inLeft | inRight
      · exact readable.1.aggregates aggregate inLeft
      · exact readable.2.aggregates aggregate inRight
  | truth value => exact absurd member List.not_mem_nil

/-- An aggregate that can be read settles what is within it. -/
theorem settled_of_readable {sites : Sites} {tuple : Nat} {aggregate : Aggregate}
    (readable : Aggregate.Readable program sites tuple aggregate)
    (inKnown : ∀ inner, (sites.aggregate? inner).isSome → inner ∈ known) :
    (∀ literal ∈ aggregate.body, Literal.Settled program known literal) ∧
      ∀ target ∈ aggregate.target, ∀ inner ∈ Argument.aggregates target, inner ∈ known := by
  obtain ⟨atom, single, declared, reads, tests, targets⟩ := readable
  have within {inner : Aggregate}
      (isSome : ((innerSites tuple sites atom.args.zipIdx).aggregate? inner).isSome) : inner ∈ known := by
    rw [Sites.aggregate?, aggregates_innerSites] at isSome
    exact inKnown inner isSome
  refine ⟨fun literal member => ?_, fun target isTarget inner isInner =>
    within ((targets target isTarget).aggregates inner isInner)⟩
  cases isPositive : literal.positiveAtom? with
  | some other =>
      have isAtom : other ∈ aggregate.body.filterMap Literal.positiveAtom? :=
        List.mem_filterMap.2 ⟨literal, member, isPositive⟩
      obtain rfl : other = atom := List.mem_singleton.1 (single ▸ isAtom)
      cases literal with
      | positive relation args =>
          cases isPositive
          refine ⟨fun other same => ?_, fun inner isInner => ?_⟩
          · cases same
            exact declared
          · obtain ⟨arg, isArg, inArg⟩ := Argument.mem_aggregatesOfAll.1 isInner
            obtain ⟨column, atColumn⟩ := List.getElem?_of_mem isArg
            exact inKnown inner (aggregate?_of_readsArguments reads (arg, column)
              (List.mem_zipIdx_iff_getElem?.2 atColumn) inner inArg)
      | _ => cases isPositive
  | none =>
      refine ⟨fun other same => ?_, fun inner isInner =>
        within (aggregate?_of_readable (tests literal member) isPositive inner isInner)⟩
      cases literal with
      | negative relation args =>
          cases same
          exact (tests _ member).1
      | positive => cases isPositive
      | comparison | truth => cases same

/-- A clause of a declared relation names only declared relations if it can be read. -/
theorem declared_of_readable {clause : Clause} (head : program.declares clause.head.relation = true)
    (readable : Clause.Readable program clause) (names : clause.Names name) : program.declares name = true := by
  have inFrame (inner : Aggregate) (isSome : ((clauseFrame clause).sites.aggregate? inner).isSome) :
      inner ∈ clauseAggregates clause := by
    obtain ⟨site, found⟩ := Option.isSome_iff_exists.1 isSome
    rw [Sites.aggregate?, aggregates_clauseFrame] at found
    obtain ⟨position, atPosition, _⟩ := aggregate?_aggregateSitesOf found
    exact List.mem_of_getElem? atPosition
  have each {aggregate : Aggregate} (member : aggregate ∈ clauseAggregates clause) :
      (∀ literal ∈ aggregate.body, Literal.Settled program (clauseAggregates clause) literal) ∧
        ∀ target ∈ aggregate.target, ∀ inner ∈ Argument.aggregates target, inner ∈ clauseAggregates clause := by
    obtain ⟨position, atPosition⟩ := List.getElem?_of_mem member
    exact settled_of_readable (readable.aggregates (aggregate, position) (List.mem_zipIdx_iff_getElem?.2 atPosition))
      inFrame
  have settles : Settles program (clauseAggregates clause) :=
    ⟨fun _ member => (each member).1, fun _ member => (each member).2⟩
  rcases names with rfl | ⟨arg, isArg, mentions⟩ | ⟨literal, isLiteral, mentions⟩
  · exact head
  · refine settles.argument mentions fun aggregate inArg => ?_
    rw [clauseAggregates, List.mem_eraseDups]
    exact List.mem_append_left _ (Argument.mem_aggregatesOfAll.2 ⟨arg, isArg, inArg⟩)
  · refine settles.literal mentions ⟨fun atom isAtom => ?_, fun aggregate inLiteral => ?_⟩
    · cases literal with
      | positive relation args =>
          cases isAtom
          exact readable.declared _ (Clause.mem_positiveAtoms.2 isLiteral)
      | negative relation args =>
          cases isAtom
          exact (readable.constraints _ isLiteral).1
      | comparison | truth => cases isAtom
    · rw [clauseAggregates, List.mem_eraseDups]
      exact List.mem_append_right _ (List.mem_flatMap.2 ⟨literal, isLiteral, inLiteral⟩)

theorem declared_of_lowerable {clause : Clause} (lowerable : Clause.Lowerable program clause)
    (names : clause.Names name) : program.declares name = true := by
  obtain ⟨head, lowerable⟩ := lowerable
  split at lowerable
  · next isFact =>
      have empty : clause.body = [] := List.isEmpty_iff.1 isFact
      have settles : Settles program [] :=
        ⟨fun _ member => absurd member List.not_mem_nil, fun _ member => absurd member List.not_mem_nil⟩
      rcases names with rfl | ⟨arg, isArg, mentions⟩ | ⟨literal, isLiteral, _⟩
      · exact head
      · refine settles.argument mentions fun aggregate inArg => ?_
        cases (lowerable arg isArg).aggregates aggregate inArg
      · rw [empty] at isLiteral
        exact absurd isLiteral List.not_mem_nil
  · exact declared_of_readable head lowerable.1 names

/-! ## Clauses that are lowered -/

variable {strategy : Strategy} {debugInfo : Bool} {compiled : Ram.Program} {plan : Plan} {clause : Clause}

/-- A clause that reads back, or is not recursive, has a query in the stratum of its head. -/
theorem exists_query (scheduled : plan.Scheduled) (isClause : clause ∈ plan.program.clauses)
    (declared : clause.head.relation ∈ plan.program.relationNames)
    (readsBack : isRecursive plan.program clause = true → plan.program.ReadsBack clause) :
    ∃ stratum ∈ plan.strata, ∃ query ∈ stratumQueries plan stratum, query.clause = clause := by
  obtain ⟨id, atId⟩ := List.getElem?_of_mem isClause
  rw [scheduled.strata]
  cases recursive : isRecursive plan.program clause with
  | false =>
      obtain ⟨_, stratum, found, inside⟩ := exists_inStratum declared
      refine ⟨stratum, List.mem_of_getElem? found, ⟨clause, id, .complete⟩, ?_, rfl⟩
      exact List.mem_append_left _ (mem_completeQueries.2 ⟨atId, inside, recursive, rfl⟩)
  | true =>
      obtain ⟨atom, isAtom, atomDeclared, back⟩ := readsBack recursive
      rw [Program.dependsOn_eq] at back
      have reads : plan.program.Reads clause.head.relation atom.relation :=
        ⟨atomDeclared, clause, isClause, rfl, Clause.reads_of_positive isAtom⟩
      obtain ⟨stratum, isStratum, repeats, headInside, atomInside⟩ := exists_stratum_of_cycle declared reads back
      obtain ⟨position, atPosition⟩ := List.getElem?_of_mem isAtom
      refine ⟨stratum, isStratum, ⟨clause, id, .incremental (some position)⟩, ?_, rfl⟩
      rw [stratumQueries, if_pos repeats]
      refine List.mem_append_right _ (mem_roundQueries.2 ⟨atId, headInside, recursive, position, ?_, rfl⟩)
      exact mem_positionsWithin.2 ⟨atom, atPosition, atomInside⟩

/-- A recursive clause reads back if no attribute is typed by an equivalence relation. -/
theorem readsBack_of_noEquivalence (noEquivalence : program.NoEquivalence) (isClause : clause ∈ program.clauses)
    (declared : clause.head.relation ∈ program.relationNames) (recursive : isRecursive program clause = true) :
    program.ReadsBack clause := by
  obtain ⟨atom, isAtom, atomDeclared, _, back⟩ := sameComponent_of_isRecursive
    (fun _ member => noEquivalence.equivalenceTypes_eq member) isClause declared recursive
  exact ⟨atom, isAtom, atomDeclared, by rwa [Program.dependsOn_eq]⟩

/-- The evaluation of a program that was lowered has code. -/
theorem exists_evaluationCode (lowered : (lowerProgram program strategy debugInfo).result = .ok compiled) :
    ∃ plan, Plan.of program strategy debugInfo = .ok plan ∧
      (evaluationCode compiled.symbols.ordinal plan).isSome := by
  cases strategy with
  | seminaive =>
      obtain ⟨plan, planned, code⟩ := evaluationCode_of_lowered lowered (Symbols.agrees_ordinal _)
      exact ⟨plan, planned, Option.isSome_of_eq_some code⟩
  | provenance =>
      obtain ⟨plan, _, _, planned, code, _⟩ := codes_of_lowered lowered
      exact ⟨plan, planned, Option.isSome_of_eq_some code⟩

theorem readable_of_addExplanations {entries : List (Clause × Nat)} {draft last : Draft}
    (ran : outcome (entries.forM fun entry => addExplanation plan entry.1 entry.2) draft = (.ok (), last)) :
    ∀ entry ∈ entries, entry.1.isFact = false →
      plan.program.declares entry.1.head.relation = true ∧ Clause.Readable plan.program entry.1 := by
  induction entries generalizing draft with
  | nil => exact fun _ member => absurd member List.not_mem_nil
  | cons entry rest ih =>
      obtain ⟨_, middle, first, onward⟩ := of_outcome_bind ran
      refine List.forall_mem_cons.2 ⟨fun isRule => ?_, ih onward⟩
      obtain ⟨_, explanation, _, after, _, isExplanation, _⟩ := outcome_addExplanation first
      obtain ⟨_, derivation, _⟩ := codes_of_explanation isExplanation (Symbols.agrees_ordinal after.symbols)
      obtain ⟨relation, isRelation, code⟩ := Option.bind_eq_some_iff.1 (derivation isRule)
      exact ⟨by rw [Program.declares, isRelation]; rfl, (isSome_ruleCode_iff.1 (Option.isSome_of_eq_some code)).1⟩

/-- In a program that was lowered, every clause that lowering comes to names only declared relations. -/
theorem names_declared (lowered : (lowerProgram program strategy debugInfo).result = .ok compiled)
    (isClause : clause ∈ program.clauses) (comesTo : ComesTo program strategy clause) (names : clause.Names name) :
    name ∈ program.relationNames := by
  apply Program.mem_relationNames_of_declares
  rcases comesTo with ⟨declared, readsBack⟩ | ⟨rfl, isRule, notInfo⟩
  · obtain ⟨plan, planned, isSome⟩ := exists_evaluationCode lowered
    obtain ⟨scheduled, rfl, _⟩ := scheduled_of planned
    obtain ⟨stratum, isStratum, query, isQuery, rfl⟩ := exists_query scheduled isClause declared readsBack
    have lowerable := (isSome_evaluationCode_iff.1 isSome).2 stratum isStratum query isQuery
    exact declared_of_lowerable lowerable names
  · obtain ⟨plan, _, _, _, _, _, _, planned, _, _, _, added, _⟩ := lowered_provenance lowered
    obtain ⟨_, rfl, _⟩ := scheduled_of planned
    obtain ⟨id, atId⟩ := List.getElem?_of_mem isClause
    have isExplained : (clause, id) ∈ explainedRules plan.program := by
      rw [explainedRules, List.mem_filter, Program.numberedClauses, List.mem_zipIdx_iff_getElem?, isRule, notInfo]
      exact ⟨atId, rfl⟩
    obtain ⟨head, readable⟩ := readable_of_addExplanations added _ isExplained isRule
    exact declared_of_readable head readable names

/-- Of the relations in `parity`, the small numbers occur only below a negation in an aggregate. -/
theorem names_declared_parity :
    ∃ compiled, (lowerProgram parity .seminaive true).result = .ok compiled ∧
      ∃ clause ∈ parity.clauses, ComesTo parity .seminaive clause ∧ clause.Names ⟨["small"]⟩ ∧
        ⟨["small"]⟩ ∈ parity.relationNames := by
  let large : Clause :=
    ⟨⟨⟨["large"]⟩, [.var "n"]⟩,
      [.comparison .eq (.var "n") (.aggregate .count none
        [.positive ⟨["even"]⟩ [.var "m"], .negative ⟨["small"]⟩ [.var "m"]])]⟩
  have isClause : large ∈ parity.clauses := by simp [parity, large]
  have plain : isRecursive parity large = false := by decide
  have comesTo : ComesTo parity .seminaive large :=
    .inl ⟨by decide, fun recursive => absurd (plain.symm.trans recursive) (by decide)⟩
  have negated : Argument.Mentions ⟨["small"]⟩ (.aggregate .count none
      [.positive ⟨["even"]⟩ [.var "m"], .negative ⟨["small"]⟩ [.var "m"]]) :=
    .body (List.mem_cons_of_mem _ (List.mem_singleton.2 rfl)) .negative
  have names : large.Names ⟨["small"]⟩ := .inr (.inr ⟨_, List.mem_singleton.2 rfl, .inRight negated⟩)
  obtain ⟨compiled, lowered⟩ := exists_result (show (lowerProgram parity .seminaive true).result.isOk by
    decide +kernel)
  exact ⟨compiled, lowered, large, isClause, comesTo, names, names_declared lowered isClause comesTo names⟩

/-- A fact of a relation that is not declared. -/
def strayFact : Program where
  types := []
  relations := []
  clauses := [⟨⟨⟨["ghost"]⟩, [.constant (.number 1)]⟩, []⟩]

/-- A rule of a relation that is not declared, with a body atom of another one. -/
def strayRule : Program where
  types := []
  relations := [⟨⟨["edge"]⟩, [⟨"a", ⟨["number"]⟩⟩], .standard, []⟩]
  clauses :=
    [⟨⟨⟨["ghost"]⟩, [.var "x"]⟩, [.positive ⟨["edge"]⟩ [.var "x"], .positive ⟨["phantom"]⟩ [.var "x"]]⟩]

/-- The rule that `sameness` loses, with a negated atom of a relation that is not declared. -/
def lostRule : Program :=
  { sameness with
    clauses :=
      [⟨⟨⟨["same"]⟩, [.var "x", .var "y"]⟩,
        [.positive ⟨["pair"]⟩ [.var "x", .var "y"], .negative ⟨["ghost"]⟩ [.var "x"]]⟩] }

/-- Facts and rules of relations that are not declared are passed over, and so is a rule that is recursive only by the
types of attributes. What they name is never required to be declared. -/
theorem undeclared_accepted :
    (⟨["ghost"]⟩ ∉ strayFact.relationNames ∧ (lowerProgram strayFact .seminaive false).result.isOk ∧
      (lowerProgram strayFact .provenance false).result.isOk) ∧
    (⟨["ghost"]⟩ ∉ strayRule.relationNames ∧ ⟨["phantom"]⟩ ∉ strayRule.relationNames ∧
      (lowerProgram strayRule .seminaive false).result.isOk) ∧
    ⟨["ghost"]⟩ ∉ lostRule.relationNames ∧ (lowerProgram lostRule .seminaive false).result.isOk := by
  decide +kernel

end Lowering

end DatalogRam
