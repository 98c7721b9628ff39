import DatalogRam.Proofs.Lowering.AggregateFrame
import DatalogRam.Proofs.Lowering.Optional
import DatalogRam.Proofs.Lowering.QueryCode

/-!
# When a clause has code

A clause has code if the relations of its atoms are declared and everything that it reads has a site where it is
read. That depends neither on the ordinals of texts nor on the strategy, and on the frame of the clause only for a
rule. The propositions here say so without the code: `Argument.Readable` for an argument, `Literal.Readable` for a
literal of a body, `Aggregate.Readable` for an aggregate and `Clause.Readable` for all of a rule but its middle.
-/

namespace DatalogRam.Lowering

open Ram

mutual

/-- The variables of an argument that are not within an aggregate. -/
def Argument.ownVariables : Argument → List String
  | .var name => [name]
  | .unnamed => []
  | .constant _ => []
  | .operator _ args => Argument.ownVariablesOfAll args
  | .external _ args => Argument.ownVariablesOfAll args
  | .aggregate .. => []
  | .record args => Argument.ownVariablesOfAll args
  | .counter => []

def Argument.ownVariablesOfAll : List Argument → List String
  | [] => []
  | arg :: args => Argument.ownVariables arg ++ Argument.ownVariablesOfAll args

end

mutual

theorem ownVariables_subset : ∀ arg : Argument, Argument.ownVariables arg ⊆ arg.variables
  | .var _ => fun _ member => member
  | .unnamed | .constant _ | .counter | .aggregate .. => List.nil_subset _
  | .operator _ args | .external _ args | .record args => ownVariablesOfAll_subset args

theorem ownVariablesOfAll_subset : ∀ args : List Argument,
    Argument.ownVariablesOfAll args ⊆ Argument.variablesOfAll args
  | [] => List.nil_subset _
  | arg :: args => List.append_subset.2 ⟨List.subset_append_of_subset_left _ (ownVariables_subset arg),
      List.subset_append_of_subset_right _ (ownVariablesOfAll_subset args)⟩

end

/-- There is a site for each of several variables and aggregates. -/
structure Sites.Give (sites : Sites) (names : List String) (aggregates : List Aggregate) : Prop where
  names : ∀ name ∈ names, (sites.definition? name).isSome
  aggregates : ∀ aggregate ∈ aggregates, (sites.aggregate? aggregate).isSome

/-- Everything that an argument reads has a site. -/
def Argument.Readable (sites : Sites) (arg : Argument) : Prop :=
  sites.Give (Argument.ownVariables arg) (Argument.aggregates arg)

/-- The negation or constraint for a literal can be tested. Positive atoms are no tests. -/
def Literal.Readable (program : Program) (sites : Sites) : Literal → Prop
  | .positive .. => True
  | .negative relation args => program.declares relation = true ∧ ∀ arg ∈ args, Argument.Readable sites arg
  | .comparison _ left right => Argument.Readable sites left ∧ Argument.Readable sites right
  | .truth _ => True

/-- The sites within an aggregate. -/
def innerSites (tuple : Nat) : Sites → List (Argument × Nat) → Sites
  | sites, [] => sites
  | sites, (arg, column) :: rest =>
      match introduced? sites arg with
      | some name => innerSites tuple (sites.addVariable name ⟨tuple, column⟩) rest
      | none => innerSites tuple sites rest

/-- Each argument of an aggregate's atom defines a variable or can be read. -/
def ReadsArguments (tuple : Nat) : Sites → List (Argument × Nat) → Prop
  | _, [] => True
  | sites, (arg, column) :: rest =>
      match introduced? sites arg with
      | some name => ReadsArguments tuple (sites.addVariable name ⟨tuple, column⟩) rest
      | none => Argument.Readable sites arg ∧ ReadsArguments tuple sites rest

/-- An aggregate ranges over one atom, of a declared relation, and can read all that it tests and folds. -/
def Aggregate.Readable (program : Program) (sites : Sites) (tuple : Nat) (aggregate : Aggregate) : Prop :=
  ∃ atom, aggregate.body.filterMap Literal.positiveAtom? = [atom] ∧ program.declares atom.relation = true ∧
    ReadsArguments tuple sites atom.args.zipIdx ∧
    (∀ literal ∈ aggregate.body, Literal.Readable program (innerSites tuple sites atom.args.zipIdx) literal) ∧
    ∀ target ∈ aggregate.target, Argument.Readable (innerSites tuple sites atom.args.zipIdx) target

/-- All parts of a rule but its middle can be lowered. -/
structure Clause.Readable (program : Program) (clause : Clause) : Prop where
  declared : ∀ atom ∈ clause.positiveAtoms, program.declares atom.relation = true
  constraints : ∀ literal ∈ clause.body, Literal.Readable program (clauseFrame clause).sites literal
  aggregates : ∀ entry ∈ (clauseAggregates clause).zipIdx,
    Aggregate.Readable program (clauseFrame clause).sites (clause.positiveAtoms.length + entry.2) entry.1
  scanned : ∀ atom ∈ clause.positiveAtoms, ∀ arg ∈ atom.args, Argument.Readable (clauseFrame clause).sites arg

/-- A clause of a declared relation can be lowered, its head included. -/
def Clause.Lowerable (program : Program) (clause : Clause) : Prop :=
  program.declares clause.head.relation = true ∧
    if clause.isFact then ∀ arg ∈ clause.head.args, Argument.Readable .empty arg
    else Clause.Readable program clause ∧
      ∀ arg ∈ clause.head.args, Argument.Readable (clauseFrame clause).sites arg

/-! ## Arguments -/

variable {ordinal : String → Int64} {plan : Plan} {sites : Sites}

theorem Sites.give_append {names others : List String} {aggregates more : List Aggregate} :
    sites.Give (names ++ others) (aggregates ++ more) ↔ sites.Give names aggregates ∧ sites.Give others more := by
  constructor
  · intro give
    exact ⟨⟨fun name member => give.names name (List.mem_append_left _ member),
      fun aggregate member => give.aggregates aggregate (List.mem_append_left _ member)⟩,
      ⟨fun name member => give.names name (List.mem_append_right _ member),
      fun aggregate member => give.aggregates aggregate (List.mem_append_right _ member)⟩⟩
  · rintro ⟨first, second⟩
    exact ⟨fun name member => (List.mem_append.1 member).elim (first.names name) (second.names name),
      fun aggregate member => (List.mem_append.1 member).elim (first.aggregates aggregate) (second.aggregates aggregate)⟩

theorem Sites.give_nil : sites.Give [] [] :=
  ⟨fun _ member => absurd member List.not_mem_nil, fun _ member => absurd member List.not_mem_nil⟩

mutual

theorem isSome_valueCode_iff :
    ∀ arg : Argument, (valueCode ordinal sites arg).isSome ↔ Argument.Readable sites arg
  | .var name => by
      rw [valueCode, Option.isSome_map]
      exact ⟨fun defined => ⟨by simpa [Argument.ownVariables] using defined, by simp [Argument.aggregates]⟩,
        fun give => give.names name (by simp [Argument.ownVariables])⟩
  | .unnamed | .constant _ | .counter => by simp [valueCode, Argument.Readable, Argument.ownVariables,
      Argument.aggregates, Sites.give_nil]
  | .operator _ args | .external _ args | .record args => by
      rw [valueCode, Option.isSome_map]
      exact isSome_valueCodes_give args
  | .aggregate function target body => by
      rw [valueCode, Option.isSome_map]
      exact ⟨fun found => ⟨by simp [Argument.ownVariables], by simpa [Argument.aggregates] using found⟩,
        fun give => give.aggregates _ (by simp [Argument.aggregates])⟩

theorem isSome_valueCodes_give :
    ∀ args : List Argument, (valueCodes ordinal sites args).isSome ↔
      sites.Give (Argument.ownVariablesOfAll args) (Argument.aggregatesOfAll args)
  | [] => by simp [valueCodes, Argument.ownVariablesOfAll, Argument.aggregatesOfAll, Sites.give_nil]
  | arg :: args => by
      rw [Argument.ownVariablesOfAll, Argument.aggregatesOfAll, Sites.give_append, ← isSome_valueCodes_give args]
      refine Iff.trans ?_ (and_congr_left' (isSome_valueCode_iff arg))
      rw [valueCodes]
      cases valueCode ordinal sites arg <;> cases valueCodes ordinal sites args <;> simp

end

theorem isSome_valueCodes_iff {args : List Argument} :
    (valueCodes ordinal sites args).isSome ↔ ∀ arg ∈ args, Argument.Readable sites arg := by
  induction args with
  | nil => simp [valueCodes]
  | cons arg args ih =>
      rw [List.forall_mem_cons, ← ih, ← isSome_valueCode_iff, valueCodes]
      cases valueCode ordinal sites arg <;> cases valueCodes ordinal sites args <;> simp

theorem isSome_relation {program : Program} {name : Name} :
    (program.relation? name).isSome = program.declares name :=
  rfl

theorem isSome_constraintCode_iff {literal : Literal} :
    (constraintCode ordinal plan sites literal).isSome ↔ Literal.Readable plan.program sites literal := by
  cases literal with
  | positive relation args => simp [constraintCode, Literal.Readable]
  | negative relation args =>
      rw [Literal.Readable, ← isSome_valueCodes_iff, ← isSome_relation, constraintCode]
      cases plan.program.relation? relation <;> cases valueCodes ordinal sites args <;> simp
  | comparison op left right =>
      rw [Literal.Readable, ← isSome_valueCode_iff, ← isSome_valueCode_iff, constraintCode]
      cases valueCode ordinal sites left <;> cases valueCode ordinal sites right <;> simp
  | truth value => cases value <;> simp [constraintCode, Literal.Readable]

/-! ## Aggregates -/

theorem introduced?_eq_some {arg : Argument} {name : String} (introduced : introduced? sites arg = some name) :
    arg = .var name := by
  cases arg with
  | var other =>
      rw [introduced?] at introduced
      split at introduced
      · cases introduced
      · exact congrArg Argument.var (Option.some.inj introduced)
  | _ => cases introduced

/-- An argument that defines a variable needs no code. -/
theorem aggregateSitesCode_of_introduced {tuple column : Nat} {arg : Argument} {name : String}
    (introduced : introduced? sites arg = some name) (rest : List (Argument × Nat)) :
    aggregateSitesCode ordinal tuple sites ((arg, column) :: rest) =
      aggregateSitesCode ordinal tuple (sites.addVariable name ⟨tuple, column⟩) rest := by
  obtain rfl := introduced?_eq_some introduced
  rw [aggregateSitesCode, introduced]
  intro same
  cases same

/-- Any other argument is compared, if it is no wildcard. -/
theorem aggregateSitesCode_of_compared {tuple column : Nat} {arg : Argument} (read : introduced? sites arg = none)
    (isValue : arg ≠ .unnamed) (rest : List (Argument × Nat)) :
    aggregateSitesCode ordinal tuple sites ((arg, column) :: rest) =
      (valueCode ordinal sites arg).bind fun value =>
        (aggregateSitesCode ordinal tuple sites rest).bind fun found =>
          some (found.1, .compare .eq (.element tuple column) value :: found.2) := by
  rw [aggregateSitesCode]
  · rw [read]
    rfl
  · exact isValue

theorem aggregateSitesCode_of_read {tuple column : Nat} {arg : Argument} (read : introduced? sites arg = none)
    (rest : List (Argument × Nat)) :
    (aggregateSitesCode ordinal tuple sites ((arg, column) :: rest)).map Prod.fst =
      (valueCode ordinal sites arg).bind fun _ => (aggregateSitesCode ordinal tuple sites rest).map Prod.fst := by
  by_cases isUnnamed : arg = .unnamed
  · subst isUnnamed
    rw [aggregateSitesCode, valueCode, Option.bind_some]
  · rw [aggregateSitesCode_of_compared read isUnnamed]
    cases valueCode ordinal sites arg with
    | none => rfl
    | some value => cases aggregateSitesCode ordinal tuple sites rest <;> rfl

theorem innerSites_of_code {tuple : Nat} {args : List (Argument × Nat)} {inner : Sites}
    (code : (aggregateSitesCode ordinal tuple sites args).map Prod.fst = some inner) :
    inner = innerSites tuple sites args := by
  induction args generalizing sites with
  | nil =>
      cases code
      rfl
  | cons entry rest ih =>
      obtain ⟨arg, column⟩ := entry
      rw [innerSites]
      cases introduced : introduced? sites arg with
      | some name =>
          rw [aggregateSitesCode_of_introduced introduced] at code
          exact ih code
      | none =>
          rw [aggregateSitesCode_of_read introduced] at code
          obtain ⟨_, _, code⟩ := Option.bind_eq_some_iff.1 code
          exact ih code

theorem isSome_aggregateSitesCode_iff {tuple : Nat} {args : List (Argument × Nat)} :
    (aggregateSitesCode ordinal tuple sites args).isSome ↔ ReadsArguments tuple sites args := by
  induction args generalizing sites with
  | nil => exact iff_of_true rfl trivial
  | cons entry rest ih =>
      obtain ⟨arg, column⟩ := entry
      rw [ReadsArguments]
      cases introduced : introduced? sites arg with
      | some name =>
          rw [aggregateSitesCode_of_introduced introduced]
          exact ih
      | none =>
          have code := @aggregateSitesCode_of_read ordinal sites tuple column arg introduced rest
          have isSome := congrArg Option.isSome code
          rw [Option.isSome_map] at isSome
          rw [isSome, ← ih, ← @isSome_valueCode_iff ordinal]
          cases valueCode ordinal sites arg <;> simp

/-- An aggregate has code exactly if it can be read. -/
theorem isSome_aggregateCode_iff {aggregate : Aggregate} {tuple : Nat} {nested : Op} :
    (aggregateCode ordinal plan sites aggregate tuple nested).isSome ↔
      Aggregate.Readable plan.program sites tuple aggregate := by
  rw [aggregateCode, Aggregate.Readable]
  split
  · next atom single =>
      have only {holds : Atom → Prop} : (∃ other, aggregate.body.filterMap Literal.positiveAtom? = [other] ∧ holds other) ↔
          holds atom := by
        rw [single]
        simp
      rw [only, ← isSome_relation, ← @isSome_aggregateSitesCode_iff ordinal]
      cases plan.program.relation? atom.relation with
      | none => simp
      | some relation =>
          cases code : aggregateSitesCode ordinal tuple sites atom.args.zipIdx with
          | none => simp
          | some result =>
              obtain ⟨inner, comparisons⟩ := result
              obtain rfl := @innerSites_of_code ordinal sites tuple atom.args.zipIdx inner (by rw [code]; rfl)
              have constraints := @isSome_filterMapM_iff _ _
                (constraintCode ordinal plan (innerSites tuple sites atom.args.zipIdx)) aggregate.body
              have target : (targetCode ordinal (innerSites tuple sites atom.args.zipIdx) aggregate.target).isSome ↔
                  ∀ target ∈ aggregate.target, Argument.Readable (innerSites tuple sites atom.args.zipIdx) target := by
                cases aggregate.target with
                | none => simp [targetCode]
                | some target => simp [targetCode, isSome_valueCode_iff]
              simp only [isSome_constraintCode_iff] at constraints
              rw [← target, ← constraints]
              simp only [Option.bind_eq_bind, Option.bind_some]
              cases aggregate.body.filterMapM (constraintCode ordinal plan (innerSites tuple sites atom.args.zipIdx)) <;>
                cases targetCode ordinal (innerSites tuple sites atom.args.zipIdx) aggregate.target <;> simp
  · next several =>
      refine iff_of_false (by simp) ?_
      rintro ⟨atom, single, _⟩
      exact several atom single

/-! ## Clauses -/

variable {clause : Clause} {version : Version} {id : Nat}

theorem isSome_matchBodyCode_iff {tuple : Nat} {entry : Argument × Nat} :
    (matchBodyCode ordinal sites tuple entry).isSome ↔ Argument.Readable sites entry.1 := by
  rw [matchBodyCode, ← @isSome_valueCode_iff ordinal]
  split
  · next free =>
      refine iff_of_true rfl ?_
      obtain ⟨arg, column⟩ := entry
      cases arg with
      | unnamed => rfl
      | var name =>
          rw [isFree, beq_iff_eq] at free
          rw [valueCode, free]
          rfl
      | _ => cases free
  · rw [Option.isSome_map]

theorem isSome_scanCode_iff {atom : Atom} {tuple : Nat} {operation : Op} :
    (scanCode ordinal version sites atom tuple operation).isSome ↔ ∀ arg ∈ atom.args, Argument.Readable sites arg := by
  have conditions := @isSome_filterMapM_iff _ _ (matchBodyCode ordinal sites tuple) atom.args.zipIdx
  simp only [isSome_matchBodyCode_iff] at conditions
  have args : (∀ entry ∈ atom.args.zipIdx, Argument.Readable sites entry.1) ↔
      ∀ arg ∈ atom.args, Argument.Readable sites arg := by
    constructor
    · intro each arg member
      obtain ⟨column, atColumn⟩ := List.getElem?_of_mem member
      exact each (arg, column) (List.mem_zipIdx_iff_getElem?.2 atColumn)
    · exact fun each entry member => each entry.1 (List.fst_mem_of_mem_zipIdx member)
  rw [← args, ← conditions, scanCode]
  cases atom.args.zipIdx.filterMapM (matchBodyCode ordinal sites tuple) <;> simp

theorem frameOf_of_declared (declared : ∀ atom ∈ clause.positiveAtoms, plan.program.declares atom.relation = true) :
    (frameOf plan clause).toOption = some (clauseFrame clause) := by
  rw [frameOf_eq, if_pos (List.all_eq_true.2 declared)]

/-- A rule has code exactly if it can be read and its middle has code. -/
theorem isSome_ruleCode_iff {middle : Frame → Option Op} :
    (ruleCode ordinal plan clause version middle).isSome ↔
      Clause.Readable plan.program clause ∧ (middle (clauseFrame clause)).isSome := by
  have constrained (operation : Op) : (constrainedCode ordinal plan (clauseFrame clause).sites clause.body operation).isSome ↔
      ∀ literal ∈ clause.body, Literal.Readable plan.program (clauseFrame clause).sites literal :=
    isSome_foldrM_iff (fun literal _ result => by rw [Option.isSome_map, isSome_constraintCode_iff]) operation
  have aggregated (operation : Op) : (aggregatedCode ordinal plan (clauseFrame clause) operation).isSome ↔
      ∀ entry ∈ (clauseAggregates clause).zipIdx,
        Aggregate.Readable plan.program (clauseFrame clause).sites (clause.positiveAtoms.length + entry.2) entry.1 := by
    refine isSome_foldrM_iff (fun entry _ result => ?_) operation
    exact isSome_aggregateCode_iff
  have scanned (operation : Op) : (scannedCode ordinal version (clauseFrame clause) operation).isSome ↔
      ∀ entry ∈ clause.positiveAtoms.zipIdx, ∀ arg ∈ entry.1.args, Argument.Readable (clauseFrame clause).sites arg := by
    refine isSome_foldrM_iff (fun entry _ result => ?_) operation
    exact isSome_scanCode_iff
  constructor
  · intro isSome
    obtain ⟨statement, code⟩ := Option.isSome_iff_exists.1 isSome
    obtain ⟨frame, inner, _, _, _, isFrame, isInner, isConstrained, isAggregated, isScanned, _⟩ := ruleCode_eq_some code
    obtain ⟨rfl, declared⟩ := frameOf_eq_some isFrame
    refine ⟨⟨declared, (constrained _).1 (Option.isSome_of_eq_some isConstrained),
      (aggregated _).1 (Option.isSome_of_eq_some isAggregated), fun atom member => ?_⟩, Option.isSome_of_eq_some isInner⟩
    obtain ⟨tuple, atTuple⟩ := List.getElem?_of_mem member
    exact (scanned _).1 (Option.isSome_of_eq_some isScanned) (atom, tuple) (List.mem_zipIdx_iff_getElem?.2 atTuple)
  · rintro ⟨readable, isSome⟩
    obtain ⟨inner, isInner⟩ := Option.isSome_iff_exists.1 isSome
    obtain ⟨guarded, isGuarded⟩ := Option.isSome_iff_exists.1 ((constrained inner).2 readable.constraints)
    obtain ⟨folded, isFolded⟩ := Option.isSome_iff_exists.1 ((aggregated guarded).2 readable.aggregates)
    obtain ⟨operation, isScanned⟩ := Option.isSome_iff_exists.1 ((scanned folded).2 fun entry member =>
      readable.scanned entry.1 (List.fst_mem_of_mem_zipIdx member))
    rw [ruleCode, frameOf_of_declared readable.declared]
    simp only [Option.bind_eq_bind, Option.bind_some, isInner, isGuarded, isFolded, isScanned]
    rfl

theorem isSome_headCode_iff (declared : plan.program.declares clause.head.relation = true) {level : Expr}
    {incremental : Bool} :
    (headCode ordinal plan clause id sites level incremental).isSome ↔
      ∀ arg ∈ clause.head.args, Argument.Readable sites arg := by
  have auxiliary : (bookkeeping plan clause id level).isSome := by
    rw [bookkeeping]
    cases plan.strategy with
    | seminaive => rfl
    | provenance =>
        rw [Plan.clauseNumber, if_pos declared]
        cases clause.isFact <;> rfl
  obtain ⟨values, areValues⟩ := Option.isSome_iff_exists.1 auxiliary
  rw [← @isSome_valueCodes_iff ordinal, headCode, areValues]
  cases valueCodes ordinal sites clause.head.args <;> simp

/-- A clause has code exactly if it can be lowered. -/
theorem isSome_clauseCode_iff :
    (clauseCode ordinal plan clause id version).isSome ↔ Clause.Lowerable plan.program clause := by
  rw [Clause.Lowerable, clauseCode]
  cases found : plan.program.relation? clause.head.relation with
  | none => simp [Program.declares, found]
  | some relation =>
      have declared : plan.program.declares clause.head.relation = true := by
        rw [Program.declares, found]
        rfl
      rw [Option.bind_eq_bind, Option.bind_some, Option.isSome_map, clauseQuery, and_iff_right declared]
      split
      · rw [← @isSome_headCode_iff ordinal plan .empty clause id declared (.signed 0) false, factCode]
        cases headCode ordinal plan clause id .empty (.signed 0) false <;> simp
      · rw [isSome_ruleCode_iff, isSome_headCode_iff declared]

end DatalogRam.Lowering
