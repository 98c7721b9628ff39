import DatalogRam.Proofs.Evaluation.Rounds

/-!
# The evaluation of a whole program

Stratum after stratum, the evaluation code computes on stores what `EvaluatesTo` says of facts, under both
strategies. Relations that are cleared when they expire are not live any more.
-/

namespace DatalogRam.Lowering

open Machine Ram Analysis

variable {ordinal : String → Int64} {plan : Plan} {position : Nat} {stratum : Stratum} {expired : List Name}

theorem computes_stratum (regular : plan.program.Regular) (args : Row)
    (found : (strata plan.program)[position]? = some stratum) {statement : Stmt}
    (code : stratumCode ordinal plan stratum = some statement) :
    Computes args [statement] (AtRest plan position) ((componentOf plan.program stratum).Evaluates ordinal)
      (AtRest plan position) := by
  obtain ⟨queries, areQueries, code⟩ := Option.bind_eq_some_iff.1 code
  have once := computes_complete regular found args areQueries
  split at code
  · next recursive =>
      obtain ⟨loop, isLoop, same⟩ := Option.bind_eq_some_iff.1 code
      cases same
      have phases := ((once.append (computes_seeds regular found args)).append
        (computes_loop regular args found isLoop)).append (computes_clearing regular found args)
      refine (phases.congr fun facts final => ?_).sequence
      have repeats : (componentOf plan.program stratum).repeats = true := recursive
      simp only [Component.Evaluates, repeats, if_pos]
      constructor
      · rintro ⟨_, ⟨_, ⟨_, rfl, rfl⟩, saturates⟩, rfl⟩
        exact saturates
      · exact fun saturates => ⟨final, ⟨_, ⟨_, rfl, rfl⟩, saturates⟩, rfl⟩
  · next straight =>
      cases code
      refine (once.congr fun facts final => ?_).sequence
      have repeats : (componentOf plan.program stratum).repeats = false := Bool.eq_false_iff.2 straight
      simp only [Component.Evaluates, repeats, Bool.false_eq_true, if_false]

/-- After the last use of relations they may be cleared. -/
theorem computes_clearExpired (regular : plan.program.Regular) (args : Row)
    (isExpired : ∀ name ∈ expired, ∃ all,
      (expirations plan.program (strata plan.program))[position]? = some all ∧ name ∈ all) :
    Computes args [clearExpiredCode plan.strategy expired] (AtRest plan position)
      (fun facts final => final = facts) (AtRest plan (position + 1)) := by
  have fewer (facts : Facts) (start : Store) (isStart : AtRest plan position facts start) :
      AtRest plan (position + 1) facts start :=
    Represents.mono isStart fun _ _ live => live.of_succ
  cases isStrategy : plan.strategy with
  | provenance =>
      refine (Computes.of_leads fun facts start isStart => ?_).sequence
      exact ⟨start, fewer facts start isStart, fun rounds => Leads.nil start⟩
  | seminaive =>
      refine (Computes.of_leads fun facts start isStart => ?_).sequence
      have isDeclared : ∀ name ∈ expired, name ∈ plan.program.relationNames := by
        intro name member
        obtain ⟨all, found, inAll⟩ := isExpired name member
        obtain ⟨stratum, isStratum, isTouched⟩ := touched_of_expirations found inAll
        rcases mem_touched_iff.1 isTouched with inside | ⟨clause, isClause, _, reads⟩
        · exact ((inStratum_iff_mem isStratum).2 inside).declared
        · exact regular.declared_of_reads isClause reads
      have isDropped : ∀ name ∈ expired, ¬Live plan.program (position + 1) .full name := by
        intro name member live
        obtain ⟨all, found, inAll⟩ := isExpired name member
        exact live rfl ⟨position, all, Nat.lt_succ_self _, found, inAll⟩
      have rest := fewer facts start isStart
      clear isStart isExpired
      induction expired generalizing start with
      | nil => exact ⟨start, rest, fun rounds => Leads.nil start⟩
      | cons name others ih =>
          have cleared : AtRest plan (position + 1) facts (start.clear name.text) :=
            rest.drop .full regular.distinct (isDeclared name List.mem_cons_self)
              (isDropped name List.mem_cons_self)
          obtain ⟨final, isFinal, onward⟩ := ih (start.clear name.text)
            (fun other member => isDeclared other (List.mem_cons_of_mem _ member))
            (fun other member => isDropped other (List.mem_cons_of_mem _ member)) cleared
          exact ⟨final, isFinal, fun rounds => (Leads.clear name.text start).cons (onward rounds)⟩

theorem computes_step (regular : plan.program.Regular) (scheduled : plan.Scheduled) (args : Row)
    (found : (strata plan.program)[position]? = some stratum) {statement : Stmt}
    (code : stepCode ordinal plan (stratum, position) = some statement) :
    Computes args [statement] (AtRest plan position) ((componentOf plan.program stratum).Evaluates ordinal)
      (AtRest plan (position + 1)) := by
  obtain ⟨evaluation, isEvaluation, same⟩ := Option.bind_eq_some_iff.1 code
  cases same
  have isExpired : ∀ name ∈ plan.expirations[position]?.getD [], ∃ all,
      (expirations plan.program (strata plan.program))[position]? = some all ∧ name ∈ all := by
    intro name member
    rw [scheduled.expirations] at member
    cases found : (expirations plan.program (strata plan.program))[position]? with
    | none =>
        rw [found] at member
        cases member
    | some all =>
        rw [found] at member
        exact ⟨all, rfl, member⟩
  have phases := (computes_stratum regular args found isEvaluation).append
    (computes_clearExpired regular args isExpired)
  refine (phases.congr fun facts final => ?_).sequence
  constructor
  · rintro ⟨_, evaluates, rfl⟩
    exact evaluates
  · exact fun evaluates => ⟨final, evaluates, rfl⟩

theorem computes_steps (regular : plan.program.Regular) (scheduled : plan.Scheduled) (args : Row)
    {rest : List Stratum} {statements : List Stmt}
    (found : ∀ (index : Nat) (stratum : Stratum), rest[index]? = some stratum →
      (strata plan.program)[position + index]? = some stratum)
    (codes : (rest.zipIdx position).mapM (stepCode ordinal plan) = some statements) :
    Computes args statements (AtRest plan position)
      (EvaluatesTo ordinal (rest.map (componentOf plan.program))) (AtRest plan (position + rest.length)) := by
  induction rest generalizing position statements with
  | nil =>
      cases codes
      exact Computes.of_leads fun facts start isStart => ⟨start, isStart, fun rounds => Leads.nil start⟩
  | cons stratum rest ih =>
      rw [List.zipIdx_cons] at codes
      obtain ⟨statement, others, isFirst, areOthers, rfl⟩ := mapM_cons_eq_some codes
      have first := computes_step regular scheduled args (found 0 stratum rfl) isFirst
      have onward := ih (fun index other atIndex => by
        rw [Nat.add_right_comm, Nat.add_assoc]
        exact found (index + 1) other atIndex) areOthers
      rw [List.length_cons, Nat.add_comm rest.length, ← Nat.add_assoc]
      exact first.append onward

/-- The evaluation code computes the semi-naive evaluation of all strata. -/
theorem computes_evaluation (regular : plan.program.Regular) (scheduled : plan.Scheduled) (args : Row)
    {statement : Stmt} (code : evaluationCode ordinal plan = some statement) :
    Computes args [statement] (AtRest plan 0)
      (EvaluatesTo ordinal (componentsOf plan.program))
      (AtRest plan (strata plan.program).length) := by
  obtain ⟨_, _, code⟩ := Option.bind_eq_some_iff.1 code
  obtain ⟨statements, areSteps, same⟩ := Option.bind_eq_some_iff.1 code
  cases same
  rw [scheduled.strata] at areSteps
  have steps := computes_steps regular scheduled args (fun index stratum atIndex => by rwa [Nat.zero_add])
    areSteps
  rw [Nat.zero_add] at steps
  exact steps.sequence

end DatalogRam.Lowering
