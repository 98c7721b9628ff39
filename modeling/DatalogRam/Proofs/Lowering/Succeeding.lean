import DatalogRam.Proofs.Lowering.Explaining
import DatalogRam.Proofs.Lowering.Lowerable
import DatalogRam.Proofs.Lowering.Programs
import DatalogRam.Proofs.Provenance.Subroutines

/-!
# When lowering succeeds

`Succeeds code holds` says that running `code` gives a result exactly if `holds`, whatever the draft. The rules follow
the ways in which code is composed. Where the trees that code gives are known, it succeeds where they are defined.
-/

namespace DatalogRam

/-- Info relations cannot describe records and counters. -/
def Argument.isDescribable : Argument → Bool
  | .record _ => false
  | .counter => false
  | _ => true

/-- Neither the head nor a positive body atom has a record or a counter for an argument. -/
structure Clause.Describable (clause : Clause) : Prop where
  head : ∀ arg ∈ clause.head.args, arg.isDescribable = true
  atoms : ∀ atom ∈ clause.positiveAtoms, ∀ arg ∈ atom.args, arg.isDescribable = true

namespace Lowering

open Ram

/-- Neither has the body an aggregate, at any depth, nor is a level asked for as an argument of the head. -/
structure Clause.Traceable (clause : Clause) : Prop where
  body : ∀ literal ∈ clause.body, Literal.aggregates literal = []
  head : ∀ name, .var name ∈ clause.head.args → isLevelVariable name = false

/-! ## Descriptions -/

section Describe

variable {α β γ : Type}

/-- Describing succeeds exactly if something holds, however many functors and aggregates have been named. -/
def Describes (code : Describe α) (holds : Prop) : Prop :=
  ∀ named, (code.run named).toOption.isSome ↔ holds

theorem Describes.pure (a : α) : Describes (pure a : Describe α) True :=
  fun _ => iff_of_true rfl trivial

theorem Describes.bind {code : Describe α} {next : α → Describe β} {first second : Prop} (begins : Describes code first)
    (ends : ∀ a, Describes (next a) second) : Describes (code >>= next) (first ∧ second) := by
  intro named
  rw [← begins named, StateT.run_bind]
  cases code.run named with
  | error error => exact iff_of_false (fun isSome => nomatch isSome) fun both => nomatch both.1
  | ok result => exact (ends result.1 result.2).trans (and_iff_right rfl).symm

theorem Describes.mapM {code : γ → Describe α} {holds : γ → Prop} (elements : List γ)
    (each : ∀ element, Describes (code element) (holds element)) :
    Describes (elements.mapM code) (∀ element ∈ elements, holds element) := by
  induction elements with
  | nil => exact fun named => iff_of_true rfl fun _ member => absurd member List.not_mem_nil
  | cons element rest ih =>
      rw [List.mapM_cons]
      intro named
      rw [List.forall_mem_cons, ← and_true (∀ other ∈ rest, holds other)]
      exact (each element).bind (fun first => ih.bind fun more => .pure (first :: more)) named

theorem Describes.filterMapM {code : γ → Describe (Option α)} {holds : γ → Prop} (elements : List γ)
    (each : ∀ element, Describes (code element) (holds element)) :
    Describes (elements.filterMapM code) (∀ element ∈ elements, holds element) := by
  induction elements with
  | nil => exact fun named => iff_of_true rfl fun _ member => absurd member List.not_mem_nil
  | cons element rest ih =>
      rw [List.filterMapM_cons]
      intro named
      rw [List.forall_mem_cons]
      refine (each element).bind (fun found => ?_) named
      cases found with
      | none => exact ih
      | some first =>
          intro named
          rw [← and_true (∀ other ∈ rest, holds other)]
          exact ih.bind (fun more => .pure (first :: more)) named

theorem describes_argument (arg : Argument) : Describes (describeArgument arg) (arg.isDescribable = true) := by
  intro named
  cases arg with
  | record | counter => exact iff_of_false (fun isSome => nomatch isSome) fun same => nomatch same
  | _ => exact iff_of_true rfl rfl

theorem describes_literal (literal : Literal) :
    Describes (describeLiteral literal) (∀ atom ∈ literal.positiveAtom?, ∀ arg ∈ atom.args, arg.isDescribable = true) := by
  cases literal with
  | positive relation args =>
      intro named
      have all := (Describes.mapM args describes_argument).bind (fun names =>
        Describes.pure (some (",".intercalate (relation.text :: names)))) named
      rw [and_true] at all
      exact all.trans ⟨fun each atom same => by cases same; exact each, fun each => each _ rfl⟩
  | _ => exact fun named => iff_of_true rfl fun _ same => nomatch same

theorem Describes.run' {code : Describe α} {holds : Prop} (describes : Describes code holds) (named : Named) :
    (code.run' named).toOption.isSome ↔ holds := by
  rw [← describes named]
  change ((fun result => result.1) <$> code.run named).toOption.isSome = true ↔ _
  cases code.run named <;> exact Iff.rfl

/-- A rule has a description exactly if all its described arguments have a name. -/
theorem isSome_describeClause_iff {clause : Clause} {number : Nat} :
    (describeClause clause number).toOption.isSome ↔ clause.Describable := by
  have describes := (Describes.mapM clause.head.args describes_argument).bind fun head =>
    (Describes.filterMapM clause.body describes_literal).bind fun literals =>
      Describes.pure (⟨number, ",".intercalate head, literals⟩ : Description)
  refine (describes.run' ⟨0, 0⟩).trans ?_
  rw [and_true]
  refine ⟨fun both => ⟨both.1, fun atom member => ?_⟩, fun describable => ⟨describable.head, ?_⟩⟩
  · obtain ⟨literal, isLiteral, isAtom⟩ := List.mem_filterMap.1 member
    exact both.2 literal isLiteral atom isAtom
  · exact fun literal isLiteral atom isAtom =>
      describable.atoms atom (List.mem_filterMap.2 ⟨literal, isLiteral, isAtom⟩)

end Describe

/-! ## Lowering -/

section Succeeds

variable {α β γ : Type} {first second : Prop}

/-- Code has a result exactly if something holds. -/
def Succeeds (code : Lower α) (holds : Prop) : Prop :=
  ∀ draft, (outcome code draft).1.toOption.isSome ↔ holds

theorem Succeeds.pure (a : α) : Succeeds (pure a : Lower α) True :=
  fun _ => iff_of_true rfl trivial

/-- What comes later may be known under what makes the first step succeed. -/
theorem Succeeds.bind {code : Lower α} {next : α → Lower β} (begins : Succeeds code first)
    (ends : first → ∀ a, Succeeds (next a) second) : Succeeds (code >>= next) (first ∧ second) := by
  intro draft
  rw [outcome_bind]
  have known := begins draft
  cases ran : outcome code draft with
  | mk result after =>
      rw [ran] at known
      cases result with
      | error error => exact iff_of_false (fun isSome => nomatch isSome) fun both => nomatch known.2 both.1
      | ok a => exact (ends (known.1 rfl) a after).trans (and_iff_right (known.1 rfl)).symm

/-- A step that always succeeds does not matter. -/
theorem Succeeds.after {code : Lower α} {next : α → Lower β} (begins : Succeeds code True)
    (ends : ∀ a, Succeeds (next a) second) : Succeeds (code >>= next) second := fun draft =>
  (begins.bind (fun _ => ends) draft).trans (and_iff_right trivial)

theorem Succeeds.forM {code : γ → Lower Unit} {holds : γ → Prop} (elements : List γ)
    (each : ∀ element ∈ elements, Succeeds (code element) (holds element)) :
    Succeeds (elements.forM code) (∀ element ∈ elements, holds element) := by
  induction elements with
  | nil => exact fun draft => iff_of_true rfl fun _ member => absurd member List.not_mem_nil
  | cons element rest ih =>
      intro draft
      rw [List.forall_mem_cons]
      exact (each element List.mem_cons_self).bind
        (fun _ _ => ih fun other member => each other (List.mem_cons_of_mem _ member)) draft

theorem Succeeds.inArena (build : Build α) : Succeeds (inArena build) True :=
  fun _ => iff_of_true rfl trivial

theorem Succeeds.report (level : Level) (message : String) (fields : List (String × String)) :
    Succeeds (report level message fields) True :=
  fun _ => iff_of_true rfl trivial

theorem Succeeds.addSubroutine (name : String) (subroutine : Subroutine) :
    Succeeds (addSubroutine name subroutine) True :=
  fun _ => iff_of_true rfl trivial

/-- Code succeeds where the tree that it gives is defined. -/
theorem Succeeds.of_gives {view : α → β} {code : Lower α} {tree : (String → Int64) → Option β}
    (gives : ∀ ordinal, Gives ordinal view code (tree ordinal)) (isSome : ∀ ordinal, (tree ordinal).isSome ↔ first) :
    Succeeds code first := by
  intro draft
  have given := gives _ draft (Symbols.agrees_ordinal _)
  rw [← isSome (outcome code draft).2.symbols.ordinal, ← given, Option.isSome_map]

end Succeeds

variable {plan : Plan} {clause : Clause} {id : Nat}

theorem succeeds_evaluation :
    Succeeds (lowerEvaluation plan)
      (plan.program.relations.all (hasColumns plan) = true ∧
        ∀ stratum ∈ plan.strata, ∀ query ∈ stratumQueries plan stratum,
          Clause.Lowerable plan.program query.clause) :=
  .of_gives (fun _ => yields_evaluation.gives) fun _ => isSome_evaluationCode_iff

/-- The info relations of rules are filled exactly if all rules can be described. -/
theorem succeeds_infos :
    Succeeds (lowerInfos plan) (∀ entry ∈ describedRules plan.program, entry.1.Describable) := by
  refine .of_gives (fun _ => yields_infos.gives) fun ordinal => ?_
  rw [infosCode, Option.isSome_map, isSome_mapM_iff]
  refine forall₂_congr fun entry member => ?_
  obtain ⟨_, declared, isRule⟩ := mem_describedRules.1 member
  rw [← @isSome_describeClause_iff entry.1 (ruleNumber plan.program entry), infoCode,
    clauseNumber_of_rule declared isRule, Except.toOption, Option.bind_eq_bind, Option.bind_some]
  cases describeClause entry.1 (ruleNumber plan.program entry) <;> exact Iff.rfl

/-- The subroutines of a rule that can be evaluated are added exactly if the rule can be traced. -/
theorem succeeds_addExplanation (lowerable : Clause.Lowerable plan.program clause) (isRule : clause.isFact = false) :
    Succeeds (addExplanation plan clause id) (Clause.Traceable clause) := by
  have readable : Clause.Readable plan.program clause := by
    have parts := lowerable.2
    rw [isRule, if_neg Bool.false_ne_true] at parts
    exact parts.1
  have numbered : Succeeds (liftExcept (plan.clauseNumber clause id) : Lower Nat) True := by
    have declared := Program.mem_relationNames_of_declares lowerable.1
    rw [@clauseNumber_of_rule plan (clause, id) declared isRule]
    exact fun _ => iff_of_true rfl trivial
  have derivation : Succeeds (lowerComplete plan clause id (.explanation (Slots.ofClause clause)))
      (∀ name, .var name ∈ clause.head.args → isLevelVariable name = false) :=
    .of_gives (fun _ => (writes_derivation clause id _ isRule).gives) fun _ =>
      isSome_explanationCode_iff lowerable isRule
  have decision : Succeeds (lowerDecision plan clause (Slots.ofClause clause))
      (∀ literal ∈ clause.body, Literal.aggregates literal = []) :=
    .of_gives (fun _ => (writes_decision clause _).gives) fun _ => isSome_decisionCode_iff readable
  have explanation : Succeeds (lowerExplanation plan clause id) (Clause.Traceable clause) := by
    intro draft
    rw [lowerExplanation]
    refine ((Succeeds.report _ _ _).after fun _ => derivation.bind fun _ body =>
      decision.bind fun _ other => .pure _) draft |>.trans ?_
    exact ⟨fun both => ⟨both.2.1, both.1⟩, fun traceable => ⟨traceable.head, traceable.body, trivial⟩⟩
  intro draft
  rw [addExplanation]
  refine (numbered.after fun number => (Succeeds.report _ _ _).after fun _ => explanation.bind fun _ written =>
    (Succeeds.addSubroutine _ _).after fun _ => Succeeds.addSubroutine _ _) draft |>.trans ?_
  exact and_iff_left trivial

end Lowering

end DatalogRam
