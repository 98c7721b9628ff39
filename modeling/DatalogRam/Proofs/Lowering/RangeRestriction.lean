import DatalogRam.Proofs.Lowering.Failing
import DatalogRam.Proofs.Lowering.SlotOrder
import DatalogRam.Proofs.Lowering.Succeeding
import DatalogRam.Proofs.Lowering.Total

/-!
# Range restriction

A variable has a site if a positive body atom has it for an argument by itself; an argument that is computed from it
does not help. Lowering looks for the sites of variables in many places: in the head, in scans, in negations and in
comparisons. Without aggregates it finds all of them exactly for range-restricted clauses, and any error names what is
missing.
-/

namespace DatalogRam

open Lowering

/-- All relations of a clause are declared, and all its variables are arguments of positive body atoms. -/
structure Clause.RangeRestricted (program : Program) (clause : Clause) : Prop where
  declared : ∀ atom ∈ clause.atoms, program.declares atom.relation = true
  bound : ∀ name, (Phrase.clause clause).Occurs name → ∃ atom ∈ clause.positiveAtoms, .var name ∈ atom.args

/-- What is wrong with a clause that is not range-restricted, as errors say it. -/
inductive Clause.Fault (program : Program) (clause : Clause) : LoweringError → Prop where
  | undeclared {atom : Atom} : atom ∈ clause.atoms → program.declares atom.relation = false →
      Fault program clause (.undeclaredRelation atom.relation.text)
  | unbound {name : String} : (Phrase.clause clause).Occurs name →
      (∀ atom ∈ clause.positiveAtoms, .var name ∉ atom.args) → Fault program clause (.undefinedVariable name)

theorem Clause.rangeRestricted_iff {program : Program} {clause : Clause} : clause.RangeRestricted program ↔
    (∀ atom ∈ clause.atoms, program.declares atom.relation = true) ∧ clause.Bound := by
  constructor
  · exact fun ⟨declared, bound⟩ => ⟨declared, fun name member => bound name (mem_clauseVariables_iff.1 member)⟩
  · exact fun ⟨declared, bound⟩ => ⟨declared, fun name occurs => bound name (mem_clauseVariables_iff.2 occurs)⟩

instance (program : Program) (clause : Clause) : Decidable (clause.RangeRestricted program) :=
  haveI : Decidable clause.Bound :=
    inferInstanceAs (Decidable (∀ name ∈ clauseVariables clause, ∃ atom ∈ clause.positiveAtoms, .var name ∈ atom.args))
  decidable_of_iff _ Clause.rangeRestricted_iff.symm

namespace Lowering

open Ram

variable {plan : Plan} {clause : Clause} {id : Nat} {sites : Sites} {name : String}

/-! ## Clauses without aggregates -/

mutual

/-- Without aggregates all variables of an argument are its own. -/
theorem ownVariables_of_plain : ∀ {arg : Argument}, Argument.aggregates arg = [] →
    Argument.ownVariables arg = arg.variables
  | .var _, _ | .unnamed, _ | .constant _, _ | .counter, _ => rfl
  | .operator _ args, plain | .external _ args, plain | .record args, plain => @ownVariablesOfAll_of_plain args plain
  | .aggregate _ _ _, plain => by cases plain

theorem ownVariablesOfAll_of_plain : ∀ {args : List Argument}, Argument.aggregatesOfAll args = [] →
    Argument.ownVariablesOfAll args = Argument.variablesOfAll args
  | [], _ => rfl
  | arg :: args, plain => by
      rw [Argument.aggregatesOfAll, List.append_eq_nil_iff] at plain
      rw [Argument.ownVariablesOfAll, Argument.variablesOfAll, ownVariables_of_plain plain.1,
        ownVariablesOfAll_of_plain plain.2]

end

theorem readable_iff_of_plain {arg : Argument} (plain : Argument.aggregates arg = []) :
    Argument.Readable sites arg ↔ ∀ name ∈ arg.variables, (sites.definition? name).isSome := by
  rw [← ownVariables_of_plain plain]
  constructor
  · exact fun readable => readable.names
  · intro defined
    refine ⟨defined, ?_⟩
    rw [plain]
    exact fun _ member => absurd member List.not_mem_nil

theorem readableAll_iff_of_plain {args : List Argument} (plain : Argument.aggregatesOfAll args = []) :
    (∀ arg ∈ args, Argument.Readable sites arg) ↔
      ∀ name ∈ Argument.variablesOfAll args, (sites.definition? name).isSome := by
  rw [← ownVariablesOfAll_of_plain plain, ← @isSome_valueCodes_iff (fun _ => 0), isSome_valueCodes_give, plain]
  exact ⟨fun give => give.names, fun defined => ⟨defined, fun _ member => absurd member List.not_mem_nil⟩⟩

/-- A literal can be read exactly if its variables have sites and a negated relation is declared. -/
theorem literal_readable_iff_of_plain {program : Program} {literal : Literal}
    (plain : Literal.aggregates literal = []) :
    (Literal.Readable program sites literal ∧
        ∀ atom ∈ literal.positiveAtom?, ∀ arg ∈ atom.args, Argument.Readable sites arg) ↔
      (∀ atom ∈ literal.negatedAtom?, program.declares atom.relation = true) ∧
        ∀ name ∈ literal.variables, (sites.definition? name).isSome := by
  cases literal with
  | positive relation args =>
      simp [Literal.Readable, Literal.positiveAtom?, Literal.negatedAtom?, Literal.variables,
        @readableAll_iff_of_plain _ args plain]
  | negative relation args =>
      simp [Literal.Readable, Literal.positiveAtom?, Literal.negatedAtom?, Literal.variables,
        @readableAll_iff_of_plain _ args plain]
  | comparison op left right =>
      rw [Literal.aggregates, List.append_eq_nil_iff] at plain
      simp [Literal.Readable, Literal.positiveAtom?, Literal.negatedAtom?, Literal.variables,
        readable_iff_of_plain plain.1, readable_iff_of_plain plain.2, or_imp, forall_and]
  | truth value => simp [Literal.Readable, Literal.positiveAtom?, Literal.negatedAtom?, Literal.variables]

theorem plain_of_clauseAggregates (plain : clauseAggregates clause = []) :
    Argument.aggregatesOfAll clause.head.args = [] ∧ ∀ literal ∈ clause.body, Literal.aggregates literal = [] := by
  rw [← List.flatMap_eq_nil_iff, ← List.append_eq_nil_iff]
  apply List.eq_nil_iff_forall_not_mem.2
  intro aggregate member
  rw [← List.mem_eraseDups, ← clauseAggregates, plain] at member
  exact List.not_mem_nil member

/-- The sites of a clause without aggregates are arguments of its positive atoms. -/
theorem isSome_definition?_iff (plain : clauseAggregates clause = []) :
    ((clauseFrame clause).sites.definition? name).isSome ↔ ∃ atom ∈ clause.positiveAtoms, .var name ∈ atom.args := by
  rw [Option.isSome_iff_exists]
  constructor
  · rintro ⟨site, found⟩
    rcases definition?_clauseFrame found with inAtoms | ⟨_, _, _, aggregate, _, isSite⟩
    · obtain ⟨atom, atTuple, atColumn⟩ := argument_of_definition inAtoms
      exact ⟨atom, List.mem_of_getElem? atTuple, List.mem_of_getElem? atColumn⟩
    · -- A variable that is equated with an aggregate is read there, but there is none.
      obtain ⟨position, found, _⟩ := aggregate?_aggregateSitesOf isSite
      simp [plain] at found
  · rintro ⟨atom, member, argument⟩
    obtain ⟨tuple, atTuple⟩ := List.getElem?_of_mem member
    obtain ⟨site, isSite, _⟩ := definition_of_argument atTuple argument
    exact ⟨site, definition?_clauseFrame_of_atoms isSite⟩

/-! ## What lowering accepts -/

/-- The variables of a fact have no site, since it has no atoms in its body. -/
theorem readable_head_iff (plain : clauseAggregates clause = []) :
    (∀ arg ∈ clause.head.args, Argument.Readable (if clause.isFact then .empty else (clauseFrame clause).sites) arg) ↔
      ∀ name ∈ clause.head.variables, ∃ atom ∈ clause.positiveAtoms, .var name ∈ atom.args := by
  rw [readableAll_iff_of_plain (plain_of_clauseAggregates plain).1]
  refine forall₂_congr fun name _ => ?_
  rw [← isSome_definition?_iff plain]
  split
  · next isFact =>
      have empty : clause.body = [] := List.isEmpty_iff.1 isFact
      have unbound : ¬∃ atom ∈ clause.positiveAtoms, .var name ∈ atom.args := by simp [Clause.positiveAtoms, empty]
      rw [← isSome_definition?_iff plain] at unbound
      exact iff_of_false Bool.false_ne_true unbound
  · exact Iff.rfl

/-- All of a rule but its head can be read exactly if its atoms are declared and the variables of its body bound. -/
theorem readable_body_iff {program : Program} (plain : clauseAggregates clause = []) :
    Clause.Readable program clause ↔
      (∀ atom ∈ clause.positiveAtoms ++ clause.negatedAtoms, program.declares atom.relation = true) ∧
        ∀ name ∈ Literal.variablesOfAll clause.body, ∃ atom ∈ clause.positiveAtoms, .var name ∈ atom.args := by
  have each (literal : Literal) (member : literal ∈ clause.body) :=
    @literal_readable_iff_of_plain (clauseFrame clause).sites program literal
      ((plain_of_clauseAggregates plain).2 literal member)
  simp only [isSome_definition?_iff plain] at each
  simp only [List.forall_mem_append, and_assoc, Literal.mem_variablesOfAll]
  constructor
  · intro readable
    have settled (literal : Literal) (member : literal ∈ clause.body) := (each literal member).1
      ⟨readable.constraints literal member, fun atom isAtom =>
        readable.scanned atom (List.mem_filterMap.2 ⟨literal, member, isAtom⟩)⟩
    refine ⟨readable.declared, ?_, ?_⟩
    · intro atom isNegated
      obtain ⟨literal, member, isAtom⟩ := List.mem_filterMap.1 isNegated
      exact (settled literal member).1 atom isAtom
    · rintro name ⟨literal, member, occurs⟩
      exact (settled literal member).2 name occurs
  · rintro ⟨positive, negated, bound⟩
    have settled (literal : Literal) (member : literal ∈ clause.body) := (each literal member).2
      ⟨fun atom isAtom => negated atom (List.mem_filterMap.2 ⟨literal, member, isAtom⟩),
        fun name occurs => bound name ⟨literal, member, occurs⟩⟩
    refine ⟨positive, fun literal member => (settled literal member).1, ?_, ?_⟩
    · simp [plain]
    · intro atom isPositive
      obtain ⟨literal, member, isAtom⟩ := List.mem_filterMap.1 isPositive
      exact (settled literal member).2 atom isAtom

/-- A clause without a body can be read. -/
theorem readable_body_of_isFact {program : Program} (plain : clauseAggregates clause = [])
    (isFact : clause.isFact = true) : Clause.Readable program clause := by
  have empty : clause.body = [] := List.isEmpty_iff.1 isFact
  rw [readable_body_iff plain]
  simp [Clause.positiveAtoms, Clause.negatedAtoms, Literal.variablesOfAll, empty]

/-- Without aggregates the clauses that can be lowered are the range-restricted ones. -/
theorem lowerable_iff_rangeRestricted {program : Program} (plain : clauseAggregates clause = []) :
    Clause.Lowerable program clause ↔ Clause.RangeRestricted program clause := by
  have parts : Clause.Lowerable program clause ↔ program.declares clause.head.relation = true ∧
      Clause.Readable program clause ∧ ∀ arg ∈ clause.head.args,
        Argument.Readable (if clause.isFact then .empty else (clauseFrame clause).sites) arg := by
    rw [Clause.Lowerable]
    split
    · next isFact => rw [and_iff_right (readable_body_of_isFact plain isFact)]
    · exact Iff.rfl
  rw [parts, readable_head_iff plain, readable_body_iff plain, Clause.rangeRestricted_iff, Clause.atoms,
    List.forall_mem_cons, Clause.Bound, clauseVariables]
  simp only [List.forall_mem_append]
  tauto

/-! ## What errors say -/

/-- What is missed in a part of a clause is a fault of the clause. -/
theorem mayMiss_of_subset {program : Program} {aggregates : List Aggregate} {names : List String}
    (unbound : ∀ name, sites.definition? name = none → ∀ atom ∈ clause.positiveAtoms, .var name ∉ atom.args)
    (plain : aggregates = []) (inside : names ⊆ clauseVariables clause) :
    MayMiss (Clause.Fault program clause) sites aggregates names :=
  ⟨plain, fun name member undefined => .unbound (mem_clauseVariables_iff.1 (inside member)) (unbound name undefined)⟩

theorem unbound_of_undefined (plain : clauseAggregates clause = [])
    (undefined : (clauseFrame clause).sites.definition? name = none) :
    ∀ atom ∈ clause.positiveAtoms, .var name ∉ atom.args := by
  intro atom member argument
  have defined := (isSome_definition?_iff plain).2 ⟨atom, member, argument⟩
  simp [undefined] at defined

theorem literal_subset {literal : Literal} (member : literal ∈ clause.body) :
    literal.variables ⊆ clauseVariables clause :=
  fun _ occurs => List.mem_append_left _ (Literal.mem_variablesOfAll.2 ⟨literal, member, occurs⟩)

theorem plain_of_mem {args : List Argument} {arg : Argument} (plain : Argument.aggregatesOfAll args = [])
    (member : arg ∈ args) : Argument.aggregates arg = [] := by
  rw [List.eq_nil_iff_forall_not_mem] at plain ⊢
  exact fun aggregate inside => plain aggregate (Argument.mem_aggregatesOfAll.2 ⟨arg, member, inside⟩)

theorem failsWith_rule (plain : clauseAggregates clause = [])
    (declared : plan.program.declares clause.head.relation = true) (version : Version) :
    FailsWith (Clause.Fault plan.program clause) (lowerRule plan clause id .insertion version) := by
  obtain ⟨plainHead, plainBody⟩ := plain_of_clauseAggregates plain
  have unbound (name : String) := @unbound_of_undefined clause name plain
  have inserted : FailsWith (Clause.Fault plan.program clause)
      (lowerInsertion plan clause id (clauseFrame clause) version.isIncremental) :=
    failsWith_insertion declared (mayMiss_of_subset unbound plainHead (List.subset_append_right _ _))
  have tested (literal : Literal) (member : literal ∈ clause.body) :
      FailsWith (Clause.Fault plan.program clause) (lowerConstraint plan (clauseFrame clause).sites literal) := by
    refine failsWith_constraint (fun atom isNegated => ?_)
      (mayMiss_of_subset unbound (plainBody literal member) (literal_subset member))
    exact .undeclared (Clause.negated_mem_atoms (List.mem_filterMap.2 ⟨literal, member, isNegated⟩))
  have scanned (operation : Placed Op) :
      FailsWith (Clause.Fault plan.program clause) (addScans version (clauseFrame clause) operation) := by
    refine failsWith_scans fun atom isAtom arg isArg => ?_
    have isPositive := Clause.mem_positiveAtoms.1 isAtom
    refine mayMiss_of_subset unbound (plain_of_mem (plainBody _ isPositive) isArg) fun name occurs => ?_
    exact literal_subset isPositive (Argument.mem_variablesOfAll.2 ⟨arg, isArg, occurs⟩)
  refine failsWith_frame (fun atom member => .undeclared (Clause.positive_mem_atoms member)) ?_
  exact inserted.bind fun middle => (failsWith_constraints tested).bind fun constrained =>
    (failsWith_aggregates plain).bind fun aggregated => (scanned aggregated).bind fun operation => .inArena _

theorem failsWith_clause (plain : clauseAggregates clause = []) (version : Version) :
    FailsWith (Clause.Fault plan.program clause) (lowerClause plan clause id .insertion version) := by
  refine failsWith_requireRelation (.undeclared clause.head_mem_atoms) fun declared relation => ?_
  extract_lets attach
  have attaches (statement : Placed Stmt) : FailsWith (Clause.Fault plan.program clause) (attach statement) :=
    .inArena _
  split
  · next isFact =>
      have empty : clause.body = [] := List.isEmpty_iff.1 isFact
      refine (failsWith_fact declared (mayMiss_of_subset ?_ (plain_of_clauseAggregates plain).1
        (List.subset_append_right _ _))).bind attaches
      simp [Clause.positiveAtoms, empty]
  · exact (failsWith_rule plain declared version).bind attaches

theorem failsWith_translation (plain : clauseAggregates clause = []) (translation : Translation) :
    FailsWith (Clause.Fault plan.program clause) (translation.lower plan clause id) := by
  cases translation with
  | complete => exact (FailsWith.report _ _ _).bind fun _ => failsWith_clause plain _
  | incremental stratum version => exact (FailsWith.report _ _ _).bind fun _ => failsWith_clause plain _

/-- A clause without aggregates is accepted exactly if it is range-restricted, whether it is evaluated over complete
relations or round by round, and under both strategies. Otherwise the error names a fault of it. -/
theorem translation_exact (plan : Plan) (id : Nat) (plain : clauseAggregates clause = []) (translation : Translation)
    (draft : Draft) :
    ((∃ statement, (outcome (translation.lower plan clause id) draft).1 = .ok statement) ↔
        Clause.RangeRestricted plan.program clause) ∧
      ∀ error, (outcome (translation.lower plan clause id) draft).1 = .error error →
        Clause.Fault plan.program clause error := by
  refine ⟨?_, failsWith_translation plain translation draft⟩
  have succeeds : Succeeds (translation.lower plan clause id) (Clause.Lowerable plan.program clause) :=
    .of_gives (fun _ => (translation.writes clause id).gives) fun _ => isSome_clauseCode_iff
  rw [← lowerable_iff_rangeRestricted plain, ← succeeds draft]
  cases (outcome (translation.lower plan clause id) draft).1 <;> simp [Except.toOption]

/-- What follows a number that is not skipped. -/
def following : Clause where
  head := ⟨⟨["next"]⟩, [.operator .add [.var "x", .constant (.number 1)]]⟩
  body :=
    [.positive ⟨["number"]⟩ [.var "x"], .negative ⟨["skipped"]⟩ [.var "x"],
      .comparison .lt (.var "x") (.constant (.number 9))]

/-- A number that is found only by what it follows. -/
def followed : Clause where
  head := ⟨⟨["next"]⟩, [.var "y"]⟩
  body := [.positive ⟨["number"]⟩ [.operator .sub [.var "y", .constant (.number 1)]]]

def successors : Program where
  types := []
  relations :=
    [⟨⟨["number"]⟩, [⟨"x", ⟨["number"]⟩⟩], .standard, [.input]⟩,
      ⟨⟨["skipped"]⟩, [⟨"x", ⟨["number"]⟩⟩], .standard, [.input]⟩,
      ⟨⟨["next"]⟩, [⟨"x", ⟨["number"]⟩⟩], .standard, [.output]⟩]
  clauses := [following, followed]

/-- A number can be computed from one that a row gives, but it is not found by what would be computed from it. -/
theorem translation_exact_successors :
    ∃ plan, Plan.of successors .provenance false = .ok plan ∧
      clauseAggregates following = [] ∧ clauseAggregates followed = [] ∧
      (∃ statement, (outcome (Translation.complete.lower plan following 0) .empty).1 = .ok statement) ∧
      (outcome ((Translation.incremental [⟨["next"]⟩] 0).lower plan followed 1) .empty).1 =
        .error (.undefinedVariable "y") := by
  have plainFollowing : clauseAggregates following = [] := by decide
  have plainFollowed : clauseAggregates followed = [] := by decide
  have restricted : following.RangeRestricted successors := by decide +kernel
  have unrestricted : ¬followed.RangeRestricted successors := by decide +kernel
  have declared : ∀ atom ∈ followed.atoms, successors.declares atom.relation = true := by decide +kernel
  have onlyY : clauseVariables followed = ["y", "y"] := by decide
  obtain ⟨plan, planned, same⟩ : ∃ plan, Plan.of successors .provenance false = .ok plan ∧ plan.program = successors :=
    ⟨_, rfl, rfl⟩
  refine ⟨plan, planned, plainFollowing, plainFollowed, ?_, ?_⟩
  · exact (translation_exact plan 0 plainFollowing .complete .empty).1.2 (same.symm ▸ restricted)
  · obtain ⟨accepts, faults⟩ := translation_exact plan 1 plainFollowed (.incremental [⟨["next"]⟩] 0) .empty
    rw [same] at accepts faults
    cases result : (outcome ((Translation.incremental [⟨["next"]⟩] 0).lower plan followed 1) .empty).1 with
    | ok statement => exact absurd (accepts.1 ⟨statement, result⟩) unrestricted
    | error error =>
        cases faults error result with
        | undeclared member undeclared => simp [declared _ member] at undeclared
        | @unbound name occurs _ =>
            have isY : name = "y" := by simpa [onlyY] using mem_clauseVariables_iff.2 occurs
            rw [isY]

end Lowering

end DatalogRam
