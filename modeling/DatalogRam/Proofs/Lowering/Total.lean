import DatalogRam.Proofs.Evaluation.Regular
import DatalogRam.Proofs.Lowering.Optional
import DatalogRam.Proofs.Lowering.ProgramCode

/-!
# Programs that can be lowered

A simple clause whose variables are arguments of its positive atoms, and whose relations are declared, has code.
So the evaluation of a program of such clauses has code if the types of its columns have kinds.
-/

namespace DatalogRam

/-- Every variable of a clause is an argument of one of its positive atoms. -/
def Clause.Bound (clause : Clause) : Prop :=
  ∀ name ∈ Lowering.clauseVariables clause, ∃ atom ∈ clause.positiveAtoms, .var name ∈ atom.args

namespace Lowering

open Ram Analysis

variable {ordinal : String → Int64} {plan : Plan} {clause : Clause} {id : Nat} {version : Version} {sites : Sites}

mutual

theorem isSome_value :
    ∀ {arg : Argument}, arg.isTerm = true → (∀ name ∈ arg.variables, ∃ site, sites.definition? name = some site) →
      (valueCode ordinal sites arg).isSome
  | .var name, _, defined => by
      obtain ⟨site, isSite⟩ := defined name (by simp [Argument.variables])
      rw [valueCode, isSite]
      rfl
  | .constant _, _, _ => rfl
  | .operator _ args, term, defined => by
      simp only [Argument.isTerm, Bool.and_eq_true] at term
      rw [valueCode, Option.isSome_map]
      exact isSome_values (fun arg member => .inr (Argument.areTerms_iff.1 term.2 arg member)) defined
  | .unnamed, term, _ => by simp [Argument.isTerm] at term
  | .external _ _, term, _ => by simp [Argument.isTerm] at term
  | .aggregate _ _ _, term, _ => by simp [Argument.isTerm] at term
  | .record _, term, _ => by simp [Argument.isTerm] at term
  | .counter, term, _ => by simp [Argument.isTerm] at term

theorem isSome_values :
    ∀ {args : List Argument}, (∀ arg ∈ args, arg = .unnamed ∨ arg.isTerm = true) →
      (∀ name ∈ Argument.variablesOfAll args, ∃ site, sites.definition? name = some site) →
      (valueCodes ordinal sites args).isSome
  | [], _, _ => rfl
  | arg :: args, plain, defined => by
      have first : (valueCode ordinal sites arg).isSome := by
        rcases plain arg List.mem_cons_self with rfl | term
        · rfl
        · exact isSome_value term fun name member => defined name (List.mem_append_left _ member)
      obtain ⟨value, isValue⟩ := Option.isSome_iff_exists.1 first
      obtain ⟨values, areValues⟩ := Option.isSome_iff_exists.1
        (isSome_values (fun other member => plain other (List.mem_cons_of_mem _ member))
          fun name member => defined name (List.mem_append_right _ member))
      rw [valueCodes, isValue, areValues]
      rfl

end

theorem Clause.Declared.exists_relation {program : Program} (declared : Clause.Declared program clause)
    {atom : Atom} (member : atom ∈ clause.atoms) : ∃ relation, program.relation? atom.relation = some relation :=
  Program.exists_relation (declared atom member).1

theorem isSome_constraint (simple : clause.Simple) (declared : Clause.Declared plan.program clause)
    {literal : Literal} (member : literal ∈ clause.body)
    (defined : literal.positiveAtom? = none →
      ∀ name ∈ literal.variables, ∃ site, sites.definition? name = some site) :
    (constraintCode ordinal plan sites literal).isSome := by
  cases literal with
  | positive relation args => rfl
  | negative relation args =>
      have isAtom : (⟨relation, args⟩ : Atom) ∈ clause.negatedAtoms := Clause.mem_negatedAtoms.2 member
      obtain ⟨declaration, isDeclared⟩ := declared.exists_relation (Clause.negated_mem_atoms isAtom)
      have some : (valueCodes ordinal sites args).isSome := isSome_values (simple.negated _ isAtom) (defined rfl)
      obtain ⟨values, areValues⟩ := Option.isSome_iff_exists.1 some
      rw [constraintCode, isDeclared, areValues]
      rfl
  | comparison op left right =>
      obtain ⟨leftTerm, rightTerm⟩ := simple.compared op left right member
      have someLeft : (valueCode ordinal sites left).isSome :=
        isSome_value leftTerm fun name isVariable => defined rfl name (List.mem_append_left _ isVariable)
      have someRight : (valueCode ordinal sites right).isSome :=
        isSome_value rightTerm fun name isVariable => defined rfl name (List.mem_append_right _ isVariable)
      obtain ⟨first, isFirst⟩ := Option.isSome_iff_exists.1 someLeft
      obtain ⟨second, isSecond⟩ := Option.isSome_iff_exists.1 someRight
      rw [constraintCode, isFirst, isSecond]
      rfl
  | truth value => cases value <;> rfl

theorem isSome_scan (simple : clause.Simple) {entry : Atom × Nat} (member : entry ∈ clause.positiveAtoms.zipIdx)
    (operation : Op) :
    (scanCode ordinal version (atomSites clause.positiveAtoms) entry.1 entry.2 operation).isSome := by
  have found := List.mem_zipIdx_iff_getElem?.1 member
  have some : (entry.1.args.zipIdx.filterMapM
      (matchBodyCode ordinal (atomSites clause.positiveAtoms) entry.2)).isSome := by
    refine isSome_filterMapM fun argument isArgument => ?_
    have isArg := List.mem_of_getElem? (List.mem_zipIdx_iff_getElem?.1 isArgument)
    rw [matchBodyCode]
    split
    · rfl
    · rw [Option.isSome_map]
      rcases Argument.isDirect_cases (simple.positive _ (List.mem_of_getElem? found) _ isArg) with
        ⟨name, isVar⟩ | isUnnamed | ⟨value, isConstant⟩
      · obtain ⟨site, isSite, _⟩ := definition_of_argument found (isVar ▸ isArg)
        rw [isVar, valueCode, isSite]
        rfl
      · rw [isUnnamed]
        rfl
      · rw [isConstant]
        rfl
  obtain ⟨conditions, areConditions⟩ := Option.isSome_iff_exists.1 some
  rw [scanCode, areConditions]
  rfl

/-- The variables of a clause are defined by its positive atoms. -/
theorem grounded_of_bound (bound : clause.Bound) : Clause.Grounded clause := by
  have defined {name : String} (isVariable : name ∈ clauseVariables clause) :
      ∃ site, (atomSites clause.positiveAtoms).definition? name = some site := by
    obtain ⟨atom, member, argument⟩ := bound name isVariable
    obtain ⟨position, atPosition⟩ := List.getElem?_of_mem member
    obtain ⟨site, isSite, _⟩ := definition_of_argument atPosition argument
    exact ⟨site, isSite⟩
  constructor
  · exact fun name member => defined (List.mem_append_right _ member)
  · exact fun literal member _ name isVariable =>
      defined (List.mem_append_left _ (Literal.mem_variablesOfAll.2 ⟨literal, member, isVariable⟩))

theorem isSome_bookkeeping (declared : Clause.Declared plan.program clause) (level : Expr) :
    (bookkeeping plan clause id level).isSome := by
  obtain ⟨relation, found⟩ := declared.exists_relation clause.head_mem_atoms
  rw [bookkeeping]
  cases plan.strategy with
  | seminaive => rfl
  | provenance =>
      rw [Plan.clauseNumber, Program.declares, found]
      cases clause.isFact <;> rfl

theorem isSome_head (simple : clause.Simple) (declared : Clause.Declared plan.program clause)
    (defined : ∀ name ∈ clause.head.variables, ∃ site, sites.definition? name = some site) (level : Expr)
    (incremental : Bool) : (headCode ordinal plan clause id sites level incremental).isSome := by
  have someValues : (valueCodes ordinal sites clause.head.args).isSome :=
    isSome_values (fun arg member => .inr (simple.head arg member)) defined
  obtain ⟨values, areValues⟩ := Option.isSome_iff_exists.1 someValues
  have someMore : (bookkeeping plan clause id level).isSome := isSome_bookkeeping declared level
  obtain ⟨auxiliary, isAuxiliary⟩ := Option.isSome_iff_exists.1 someMore
  rw [headCode, areValues, isAuxiliary]
  rfl

/-- The query of a rule has code as soon as its middle has. -/
theorem isSome_rule (simple : clause.Simple) (grounded : Clause.Grounded clause)
    (declared : Clause.Declared plan.program clause) {middle : Frame → Option Op}
    (someMiddle : (middle (simpleFrame clause)).isSome) : (ruleCode ordinal plan clause version middle).isSome := by
  have allDeclared : clause.positiveAtoms.all (fun atom => plan.program.declares atom.relation) = true := by
    rw [List.all_eq_true]
    intro atom member
    obtain ⟨relation, found⟩ := declared.exists_relation (Clause.positive_mem_atoms member)
    rw [Program.declares, found]
    rfl
  obtain ⟨inner, isInner⟩ := Option.isSome_iff_exists.1 someMiddle
  have someConstrained :
      (constrainedCode ordinal plan (atomSites clause.positiveAtoms) clause.body inner).isSome := by
    refine isSome_foldrM (fun literal member operation => ?_) inner
    rw [Option.isSome_map]
    exact isSome_constraint simple declared member (grounded.body literal member)
  obtain ⟨constrained, isConstrained⟩ := Option.isSome_iff_exists.1 someConstrained
  have someScanned : (scannedCode ordinal version (simpleFrame clause) constrained).isSome :=
    isSome_foldrM (fun entry member operation => isSome_scan simple member operation) constrained
  obtain ⟨scanned, isScanned⟩ := Option.isSome_iff_exists.1 someScanned
  have aggregated : aggregatedCode ordinal plan (simpleFrame clause) constrained = some constrained := rfl
  rw [ruleCode, frameOf_simple simple, if_pos allDeclared]
  simp only [simpleFrame] at isInner isScanned aggregated ⊢
  simp only [Option.bind_eq_bind, Option.bind_some, isInner, isConstrained, aggregated, isScanned]
  rfl

/-- A simple clause that is grounded, with declared relations, has code. -/
theorem isSome_clause (simple : clause.Simple) (grounded : Clause.Grounded clause)
    (declared : Clause.Declared plan.program clause) : (clauseCode ordinal plan clause id version).isSome := by
  obtain ⟨relation, found⟩ := declared.exists_relation clause.head_mem_atoms
  rw [clauseCode, found, Option.bind_eq_bind, Option.bind_some, Option.isSome_map, clauseQuery]
  split
  · next fact =>
      have noAtoms : clause.positiveAtoms = [] := by
        rw [Clause.positiveAtoms, List.isEmpty_iff.1 fact]
        rfl
      have defined := grounded.head
      rw [noAtoms] at defined
      have some : (headCode ordinal plan clause id .empty (.signed 0) false).isSome :=
        isSome_head simple declared defined _ _
      obtain ⟨insertion, isInsertion⟩ := Option.isSome_iff_exists.1 some
      rw [factCode, isInsertion]
      rfl
  · exact isSome_rule simple grounded declared (isSome_head simple declared grounded.head _ _)

/-! ## Strata -/

variable {names : List Name}

theorem isSome_stratum (regular : plan.program.Regular)
    (grounded : ∀ clause ∈ plan.program.clauses, Clause.Grounded clause) (stratum : Stratum) :
    (stratumCode ordinal plan stratum).isSome := by
  have someClause {name : Name} {recursive : Bool} {entry : Clause × Nat}
      (member : entry ∈ plan.clausesOf name recursive) (version : Version) :
      (clauseCode ordinal plan entry.1 entry.2 version).isSome := by
    have isClause : entry.1 ∈ plan.program.clauses := by
      rw [Plan.clausesOf] at member
      exact List.mem_of_getElem? (Program.mem_clausesOf.1 (List.mem_filter.1 member).1).1
    exact isSome_clause (regular.simple _ isClause) (grounded _ isClause) (regular.declared _ isClause)
  have someComplete : (stratum.relations.mapM (completeCode ordinal plan)).isSome :=
    isSome_mapM fun name _ => isSome_mapM fun entry member => someClause member .complete
  have someRecursive : (stratum.relations.mapM (recursiveCode ordinal plan stratum.relations)).isSome := by
    refine isSome_mapM fun name _ => ?_
    rw [recursiveCode, Option.isSome_map]
    exact isSome_mapM fun entry member => isSome_mapM fun version _ => someClause member _
  obtain ⟨queries, areQueries⟩ := Option.isSome_iff_exists.1 someComplete
  obtain ⟨rounds, areRounds⟩ := Option.isSome_iff_exists.1 someRecursive
  rw [stratumCode, areQueries, Option.bind_eq_bind, Option.bind_some]
  split
  · rw [loopCode, areRounds]
    rfl
  · rfl

/-- The evaluation of a regular program with bound variables and typed columns has code. -/
theorem isSome_evaluation (regular : plan.program.Regular)
    (grounded : ∀ clause ∈ plan.program.clauses, Clause.Grounded clause)
    (typed : ∀ relation ∈ plan.program.relations, hasColumns plan relation = true) :
    (evaluationCode ordinal plan).isSome := by
  have someSteps : (plan.strata.zipIdx.mapM (stepCode ordinal plan)).isSome := by
    refine isSome_mapM fun entry _ => ?_
    have some : (stratumCode ordinal plan entry.1).isSome := isSome_stratum regular grounded entry.1
    obtain ⟨evaluation, isEvaluation⟩ := Option.isSome_iff_exists.1 some
    rw [stepCode, isEvaluation]
    rfl
  obtain ⟨steps, areSteps⟩ := Option.isSome_iff_exists.1 someSteps
  rw [evaluationCode, List.all_eq_true.2 typed, areSteps]
  rfl

end Lowering

end DatalogRam
