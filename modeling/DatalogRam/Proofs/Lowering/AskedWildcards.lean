import DatalogRam.Proofs.Lowering.ProgramUses
import DatalogRam.Proofs.Machine.Wildcards
import DatalogRam.Proofs.Provenance.Decisions

/-!
# Wildcards in lowered programs

A wildcard of the source is to end up in an existence check, where it matches everything, for nowhere else has it a
value. That is so in the main statement. In the subroutines it is so but for one place: the answer of a derivation
reports the arguments of negated atoms, wildcards included.
-/

namespace DatalogRam.Lowering

open Machine Ram

variable {program : Program} {strategy : Strategy} {debugInfo : Bool} {compiled : Ram.Program}

theorem asks_of_mainUse {plan : Plan} (definite : ∀ clause ∈ plan.program.clauses, clause.Definite) {scans : Scans}
    {use : Use} (isUse : MainUse plan scans use) : use.AsksOnly := by
  cases isUse with
  | query isStratum isRun within uses =>
      rcases uses.asks (definite _ (List.mem_of_getElem? isRun.atId)) with asks | ⟨isAnswer, _⟩
      · exact asks
      · cases uses.answers isAnswer
  | round isStratum loops member => exact fun expr isExpr => absurd isExpr List.not_mem_nil
  | rule isTable count =>
      intro expr isExpr
      obtain ⟨word, _, rfl⟩ := List.mem_map.1 isExpr
      simp [Expr.IsDefined, Expr.leaves, Expr.isUndefined]

/-- Wildcards stand in existence checks only, so no code raises their fault, except for the subroutine of a rule with a
wildcard in a negated atom: there a wildcard may also be one of the values of an answer. -/
theorem lowered_asks (definite : ∀ clause ∈ program.clauses, clause.Definite)
    (lowered : (lowerProgram program strategy debugInfo).result = .ok compiled) :
    (compiled.main.tree.Uses fun _ use => use.AsksOnly) ∧
      (∀ rounds, Avoids .wildcard (runMain compiled rounds)) ∧
      ∀ name subroutine, compiled.subroutine? name = some subroutine → ∃ clause ∈ program.clauses,
        (subroutine.body.tree.Uses fun _ use =>
          use.AsksOnly ∨ use.isAnswer = true ∧ clause.NegatesOpenly ∧ ∀ expr ∈ use.exprs, Asked expr) ∧
        (¬clause.NegatesOpenly → ∀ rounds args, Avoids .wildcard (callSubroutine compiled rounds name args)) := by
  have main : compiled.main.tree.Uses fun _ use => use.AsksOnly := by
    obtain ⟨plan, planned, uses⟩ := uses_of_main lowered
    obtain ⟨_, rfl, _⟩ := scheduled_of planned
    exact uses.mono fun scans use isUse => asks_of_mainUse definite isUse
  refine ⟨main, avoids_runMain main, fun name subroutine found => ?_⟩
  obtain ⟨plan, _, clause, isClause, uses⟩ := uses_of_subroutine lowered found
  have asks := uses.mono fun scans use isUse => isUse.2.asks (definite clause isClause)
  refine ⟨clause, isClause, asks, fun closed => avoids_callSubroutine fun other isOther => ?_⟩
  rw [found] at isOther
  cases isOther
  exact asks.mono fun scans use asksOrAnswers => asksOrAnswers.resolve_right fun opens => closed opens.2.1

/-- The rule for due tasks ignores what a task costs. -/
theorem lowered_asks_backlog :
    (∀ clause ∈ backlog.clauses, clause.Definite) ∧
      ∃ compiled, (lowerProgram backlog .provenance true).result = .ok compiled ∧ compiled.subroutines.length = 2 ∧
        (∀ rounds, Avoids .wildcard (runMain compiled rounds)) ∧
        ∀ name subroutine, compiled.subroutine? name = some subroutine →
          ∀ rounds args, Avoids .wildcard (callSubroutine compiled rounds name args) := by
  have definite : ∀ clause ∈ backlog.clauses, clause.Definite := by decide +kernel
  have closed : ∀ clause ∈ backlog.clauses, ¬clause.NegatesOpenly := by decide +kernel
  have count : ((lowerProgram backlog .provenance true).result.toOption.map fun compiled =>
      compiled.subroutines.length) = some 2 := by
    decide +kernel
  obtain ⟨compiled, lowered, two⟩ := exists_shown count
  obtain ⟨_, runs, calls⟩ := lowered_asks definite lowered
  refine ⟨definite, compiled, lowered, two, runs, fun name subroutine found => ?_⟩
  obtain ⟨clause, isClause, _, avoids⟩ := calls name subroutine found
  exact avoids (closed clause isClause)

/-! ## Answers with wildcards -/

/-- Items, of which nothing has been sold. -/
def unsold : Program where
  types := []
  relations :=
    [⟨⟨["item"]⟩, [⟨"a", ⟨["number"]⟩⟩], .standard, []⟩, ⟨⟨["sold"]⟩, [⟨"b", ⟨["number"]⟩⟩], .standard, []⟩,
      ⟨⟨["kept"]⟩, [⟨"a", ⟨["number"]⟩⟩], .standard, [.output]⟩]
  clauses :=
    [⟨⟨⟨["item"]⟩, [.constant (.number 1)]⟩, []⟩,
      ⟨⟨⟨["kept"]⟩, [.var "x"]⟩, [.positive ⟨["item"]⟩ [.var "x"], .negative ⟨["sold"]⟩ [.unnamed]]⟩]

/-- The derivation of a kept item is found, but its answer has a wildcard in place of what was not sold. -/
theorem unsold_answers_wildcard :
    (∀ clause ∈ unsold.clauses, clause.Definite) ∧
      ((lowerProgram unsold .provenance false).result.toOption.map fun compiled =>
        let (ran, final) := (runMain compiled 1).run.run (.start compiled .empty)
        (ran, (final.store.rows "kept").toList,
          ((callSubroutine compiled 1 "kept_1_subproof" [1, 1]).run.run final).1)) =
        some (.ok (), [[1, 1, 1]], .error .wildcard) := by
  decide +kernel

end DatalogRam.Lowering
