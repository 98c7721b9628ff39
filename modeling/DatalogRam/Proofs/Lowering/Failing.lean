import DatalogRam.Proofs.Lowering.Readable
import DatalogRam.Proofs.Lowering.Writing

/-!
# With which errors lowering fails

`FailsWith allowed code` says that running `code` gives a result or an error that is allowed, whatever the draft. The
rules follow the ways in which code is composed. Below them, the parts of a query without aggregates are seen to fail
only over variables that have no site and relations that are not declared.
-/

namespace DatalogRam.Lowering

open Ram

variable {α β γ : Type} {allowed : LoweringError → Prop}

/-- Every error that code ends with is allowed. -/
def FailsWith (allowed : LoweringError → Prop) (code : Lower α) : Prop :=
  ∀ draft error, (outcome code draft).1 = .error error → allowed error

namespace FailsWith

theorem pure (a : α) : FailsWith allowed (pure a : Lower α) := by
  intro draft error failed
  cases failed

theorem throw {error : LoweringError} (isAllowed : allowed error) : FailsWith allowed (throw error : Lower α) := by
  intro draft other failed
  cases failed
  exact isAllowed

theorem inArena (build : Build α) : FailsWith allowed (inArena build) := by
  intro draft error failed
  cases failed

theorem encodeSymbol (text : String) : FailsWith allowed (encodeSymbol text) := by
  intro draft error failed
  cases failed

theorem report (level : Level) (message : String) (fields : List (String × String)) :
    FailsWith allowed (report level message fields) := by
  intro draft error failed
  cases failed

theorem bind {code : Lower α} {next : α → Lower β} (first : FailsWith allowed code)
    (second : ∀ a, FailsWith allowed (next a)) : FailsWith allowed (code >>= next) := by
  intro draft error failed
  rw [outcome_bind] at failed
  cases ran : outcome code draft with
  | mk result after =>
      rw [ran] at failed
      cases result with
      | ok a => exact second a after error failed
      | error other =>
          cases failed
          exact first draft error (congrArg Prod.fst ran)

/-- A check that is passed does not matter. -/
theorem passed {a : α} {next : α → Lower β} (rest : FailsWith allowed (next a)) :
    FailsWith allowed ((liftExcept (.ok a : Except LoweringError α) : Lower α) >>= next) :=
  rest

/-- After a check that is not passed nothing else matters. -/
theorem refused {error : LoweringError} {next : α → Lower β} (isAllowed : allowed error) :
    FailsWith allowed ((liftExcept (.error error : Except LoweringError α) : Lower α) >>= next) :=
  @throw β allowed error isAllowed

theorem filterMapM {code : γ → Lower (Option α)} (elements : List γ)
    (each : ∀ element ∈ elements, FailsWith allowed (code element)) :
    FailsWith allowed (elements.filterMapM code) := by
  induction elements with
  | nil => exact pure []
  | cons element rest ih =>
      rw [List.forall_mem_cons] at each
      rw [List.filterMapM_cons]
      refine each.1.bind fun found => ?_
      cases found with
      | none => exact ih each.2
      | some first => exact (ih each.2).bind fun more => pure (first :: more)

theorem foldrM {code : γ → β → Lower β} (elements : List γ)
    (each : ∀ element ∈ elements, ∀ b, FailsWith allowed (code element b)) (start : β) :
    FailsWith allowed (elements.foldrM code start) := by
  induction elements with
  | nil => exact pure start
  | cons element rest ih =>
      rw [List.forall_mem_cons] at each
      rw [List.foldrM_cons]
      exact (ih each.2).bind (each.1 ·)

end FailsWith

/-! ## Values and conditions -/

variable {plan : Plan} {sites : Sites}

/-- There are no aggregates, and it is allowed to miss the variables that have no site. -/
structure MayMiss (allowed : LoweringError → Prop) (sites : Sites) (aggregates : List Aggregate) (names : List String) :
    Prop where
  plain : aggregates = []
  missed : ∀ name ∈ names, sites.definition? name = none → allowed (.undefinedVariable name)

theorem MayMiss.of_append {aggregates more : List Aggregate} {names others : List String}
    (mayMiss : MayMiss allowed sites (aggregates ++ more) (names ++ others)) :
    MayMiss allowed sites aggregates names ∧ MayMiss allowed sites more others := by
  obtain ⟨plain, missed⟩ := mayMiss
  rw [List.append_eq_nil_iff] at plain
  exact ⟨⟨plain.1, fun name member => missed name (List.mem_append_left _ member)⟩,
    ⟨plain.2, fun name member => missed name (List.mem_append_right _ member)⟩⟩

theorem failsWith_constant (value : Constant) : FailsWith allowed (lowerConstant value) := by
  cases value with
  | string text => exact (FailsWith.encodeSymbol text).bind fun _ => .inArena _
  | _ => exact .inArena _

mutual

theorem failsWith_value (sites : Sites) : ∀ {arg : Argument},
    MayMiss allowed sites (Argument.aggregates arg) arg.variables → FailsWith allowed (lowerValue sites arg)
  | .var name, mayMiss => by
      rw [lowerValue]
      cases defined : sites.definition? name with
      | some site => exact .inArena _
      | none => exact .throw (mayMiss.missed name (by simp [Argument.variables]) defined)
  | .unnamed, _ => .inArena _
  | .constant value, _ => failsWith_constant value
  | .operator _ args, mayMiss => (@failsWith_values sites args mayMiss).bind fun _ => .inArena _
  | .external _ args, mayMiss => (@failsWith_values sites args mayMiss).bind fun _ => .inArena _
  | .aggregate _ _ _, mayMiss => by cases mayMiss.plain
  | .record args, mayMiss => (@failsWith_values sites args mayMiss).bind fun _ => .inArena _
  | .counter, _ => .inArena _

theorem failsWith_values (sites : Sites) : ∀ {args : List Argument},
    MayMiss allowed sites (Argument.aggregatesOfAll args) (Argument.variablesOfAll args) →
    FailsWith allowed (lowerValues sites args)
  | [], _ => .pure []
  | arg :: args, mayMiss => by
      obtain ⟨first, rest⟩ := MayMiss.of_append mayMiss
      rw [lowerValues]
      exact (failsWith_value sites first).bind fun value =>
        (failsWith_values sites rest).bind fun more => .pure (value :: more)

end

/-- A relation has to be declared. -/
theorem failsWith_requireRelation {name : Name} {next : Relation → Lower α}
    (undeclared : plan.program.declares name = false → allowed (.undeclaredRelation name.text))
    (declared : plan.program.declares name = true → ∀ relation, FailsWith allowed (next relation)) :
    FailsWith allowed ((liftExcept (plan.requireRelation name) : Lower Relation) >>= next) := by
  rw [Plan.requireRelation]
  cases found : plan.program.relation? name with
  | none => exact .refused (undeclared (by rw [Program.declares, found]; rfl))
  | some relation => exact .passed (declared (by rw [Program.declares, found]; rfl) relation)

theorem failsWith_constraint {literal : Literal}
    (undeclared : ∀ atom ∈ literal.negatedAtom?, plan.program.declares atom.relation = false →
      allowed (.undeclaredRelation atom.relation.text))
    (mayMiss : MayMiss allowed sites (Literal.aggregates literal) literal.variables) :
    FailsWith allowed (lowerConstraint plan sites literal) := by
  cases literal with
  | positive relation args => exact .pure none
  | negative relation args =>
      refine failsWith_requireRelation (undeclared ⟨relation, args⟩ rfl) fun _ _ => ?_
      exact (failsWith_values sites mayMiss).bind fun values => (FailsWith.inArena _).bind fun check =>
        (FailsWith.inArena _).bind fun negated => .pure (some negated)
  | comparison op left right =>
      obtain ⟨isLeft, isRight⟩ := mayMiss.of_append
      exact (failsWith_value sites isLeft).bind fun left => (failsWith_value sites isRight).bind fun right =>
        (FailsWith.inArena _).bind fun compared => .pure (some compared)
  | truth value => cases value <;> exact (FailsWith.inArena _).bind fun condition => .pure (some condition)

/-! ## Queries -/

variable {clause : Clause} {id : Nat}

/-- A clause of a declared relation has a number. -/
theorem failsWith_clauseNumber {next : Nat → Lower α} (declared : plan.program.declares clause.head.relation = true)
    (rest : ∀ number, FailsWith allowed (next number)) :
    FailsWith allowed ((liftExcept (plan.clauseNumber clause id) : Lower Nat) >>= next) := by
  rw [Plan.clauseNumber, if_pos declared]
  split <;> exact .passed (rest _)

theorem failsWith_insertion {frame : Frame} {incremental : Bool}
    (declared : plan.program.declares clause.head.relation = true)
    (mayMiss : MayMiss allowed frame.sites (Argument.aggregatesOfAll clause.head.args) clause.head.variables) :
    FailsWith allowed (lowerInsertion plan clause id frame incremental) := by
  refine (failsWith_values frame.sites mayMiss).bind fun logical => ?_
  extract_lets insert
  have inserts (auxiliary : List (Placed Expr)) : FailsWith allowed (insert auxiliary) := .inArena _
  split
  · exact (FailsWith.pure []).bind inserts
  · exact failsWith_clauseNumber declared fun number => (FailsWith.inArena _).bind fun rule =>
      (FailsWith.inArena _).bind fun level => (FailsWith.pure [rule, level]).bind inserts

theorem failsWith_fact (declared : plan.program.declares clause.head.relation = true)
    (mayMiss : MayMiss allowed .empty (Argument.aggregatesOfAll clause.head.args) clause.head.variables) :
    FailsWith allowed (lowerFact plan clause id) := by
  refine (failsWith_values .empty mayMiss).bind fun logical => ?_
  extract_lets insert
  have inserts (auxiliary : List (Placed Expr)) : FailsWith allowed (insert auxiliary) :=
    (FailsWith.inArena _).bind fun _ => .inArena _
  split
  · exact (FailsWith.pure []).bind inserts
  · exact failsWith_clauseNumber declared fun number => (FailsWith.inArena _).bind fun rule =>
      (FailsWith.inArena _).bind fun level => (FailsWith.pure [rule, level]).bind inserts

theorem failsWith_matchBody {tuple column : Nat} {arg : Argument}
    (mayMiss : MayMiss allowed sites (Argument.aggregates arg) arg.variables) :
    FailsWith allowed (matchBodyArgument sites tuple arg column) := by
  unfold matchBodyArgument
  extract_lets definedHere
  split
  · exact .pure none
  · exact (failsWith_value sites mayMiss).bind fun value => (FailsWith.inArena _).bind fun here =>
      (FailsWith.inArena _).bind fun compared => .pure (some compared)

theorem failsWith_scan {version : Version} {atom : Atom} {tuple : Nat} {operation : Placed Op}
    (mayMiss : ∀ arg ∈ atom.args, MayMiss allowed sites (Argument.aggregates arg) arg.variables) :
    FailsWith allowed (addScan version sites atom tuple operation) := by
  refine (FailsWith.filterMapM _ fun entry member => ?_).bind fun conditions => ?_
  · exact failsWith_matchBody (mayMiss entry.1 (List.fst_mem_of_mem_zipIdx member))
  · extract_lets relation scan
    have scans (nested : Placed Op) : FailsWith allowed (scan nested) := .inArena _
    split
    · exact (FailsWith.pure operation).bind scans
    · exact (FailsWith.inArena _).bind fun condition => (FailsWith.inArena _).bind scans

theorem failsWith_scans {version : Version} {frame : Frame} {operation : Placed Op}
    (mayMiss : ∀ atom ∈ frame.atoms, ∀ arg ∈ atom.args,
      MayMiss allowed frame.sites (Argument.aggregates arg) arg.variables) :
    FailsWith allowed (addScans version frame operation) := by
  refine .foldrM _ (fun entry member nested => ?_) operation
  exact failsWith_scan (mayMiss entry.1 (List.fst_mem_of_mem_zipIdx member))

theorem failsWith_aggregates {frame : Frame} {operation : Placed Op} (plain : frame.aggregates = []) :
    FailsWith allowed (addAggregates plan frame operation) := by
  refine .foldrM _ (fun entry member nested => ?_) operation
  simp [plain] at member

theorem failsWith_constraints {body : List Literal} {operation : Placed Op}
    (each : ∀ literal ∈ body, FailsWith allowed (lowerConstraint plan sites literal)) :
    FailsWith allowed (addConstraints plan sites body operation) := by
  refine .foldrM body (fun literal member operation => ?_) operation
  refine (each literal member).bind fun found => ?_
  cases found with
  | none => exact .pure operation
  | some condition => exact .inArena _

/-- Of several relations that have to be declared, one that is not is the reason for an error. -/
theorem requireAll_eq_error {atoms : List Atom} {error : LoweringError}
    (failed : (atoms.forM fun atom => discard (plan.requireRelation atom.relation)) = .error error) :
    ∃ atom ∈ atoms, plan.program.declares atom.relation = false ∧ error = .undeclaredRelation atom.relation.text := by
  induction atoms with
  | nil => cases failed
  | cons atom rest ih =>
      change (discard (plan.requireRelation atom.relation) >>= fun _ => rest.forM _) = _ at failed
      rw [Plan.requireRelation] at failed
      cases found : plan.program.relation? atom.relation with
      | none =>
          rw [found] at failed
          cases failed
          exact ⟨atom, List.mem_cons_self, by rw [Program.declares, found]; rfl, rfl⟩
      | some relation =>
          rw [found] at failed
          obtain ⟨other, member, undeclared, isError⟩ := ih failed
          exact ⟨other, List.mem_cons_of_mem _ member, undeclared, isError⟩

/-- The frame of a clause is known once its positive atoms are of declared relations. -/
theorem failsWith_frame {next : Frame → Lower α}
    (undeclared : ∀ atom ∈ clause.positiveAtoms, plan.program.declares atom.relation = false →
      allowed (.undeclaredRelation atom.relation.text))
    (rest : FailsWith allowed (next (clauseFrame clause))) :
    FailsWith allowed ((liftExcept (frameOf plan clause) : Lower Frame) >>= next) := by
  change FailsWith allowed (liftExcept (_ >>= fun _ => Pure.pure (clauseFrame clause)) >>= next)
  cases checked : clause.positiveAtoms.forM fun atom => discard (plan.requireRelation atom.relation) with
  | ok _ => exact .passed rest
  | error error =>
      obtain ⟨atom, member, isUndeclared, rfl⟩ := requireAll_eq_error checked
      exact .refused (undeclared atom member isUndeclared)

end DatalogRam.Lowering
