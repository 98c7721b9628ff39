import DatalogRam.Proofs.Evaluation.Infos
import DatalogRam.Proofs.Evaluation.Stores
import DatalogRam.Proofs.Lowering.Alike

/-!
# Both strategies compute the same facts

Under provenance rows are wider, guards are other ones and nothing is cleared. But the code of both strategies
computes the same relation on logical contents, so one run ends if and only if the other does, and then the
outputs agree up to the bookkeeping columns.
-/

namespace DatalogRam

open Analysis Lowering Machine Ram

/-- The tables of a regular program and the info relations of its rules are told apart by their names. -/
structure Program.Recordable (program : Program) : Prop extends program.Regular where
  tables : (tableNames program ++ infoTables program).Nodup

/-- A store with the rows of another one, each of them with two more columns. -/
structure Pads (padded store : Store) : Prop where
  kept : ∀ table, ∀ row ∈ store.rows table, ∃ rule level, row ++ [rule, level] ∈ padded.rows table
  only : ∀ table, ∀ full ∈ padded.rows table, ∃ row ∈ store.rows table, ∃ rule level, full = row ++ [rule, level]

variable {program : Program} {store padded : Store} {compiled recorded : Ram.Program} {debugInfo alsoDebug : Bool}

theorem Program.Recordable.apart (recordable : program.Recordable) :
    ∀ table ∈ infoTables program, table ∉ tableNames program :=
  fun _ member inTables => (List.nodup_append.1 recordable.tables).2.2 _ inTables _ member rfl

theorem Pads.holdsDeclared (pads : Pads padded store) (holds : HoldsDeclared program 0 store) :
    HoldsDeclared program 2 padded := by
  intro table full member
  obtain ⟨row, inStore, rule, level, rfl⟩ := pads.only table full member
  obtain ⟨relation, isRelation, isTable, length⟩ := holds table row inStore
  exact ⟨relation, isRelation, isTable, by simpa using length⟩

theorem Pads.contentsOf_eq (pads : Pads padded store) : contentsOf program 2 padded = contentsOf program 0 store := by
  funext name
  ext row
  refine and_congr_right fun _ => ⟨?_, ?_⟩
  · rintro ⟨full, member, length, rfl⟩
    obtain ⟨row, inStore, rule, level, rfl⟩ := pads.only _ full member
    have short : row.length = arityOf program name := by simpa using length
    exact ⟨row, inStore, short, by rw [← short]; simp⟩
  · rintro ⟨row, inStore, length, rfl⟩
    obtain ⟨rule, level, member⟩ := pads.kept _ row inStore
    have short : row.length = arityOf program name := length
    exact ⟨_, member, by simp [short], by rw [← short]; simp⟩

/-- The symbols of a program lowered for provenance extend those of the semi-naive one. -/
theorem extends_of_lowered (simple : ∀ clause ∈ program.clauses, clause.Simple)
    (lowered : (lowerProgram program .seminaive debugInfo).result = .ok compiled)
    (alsoLowered : (lowerProgram program .provenance alsoDebug).result = .ok recorded) :
    recorded.symbols.Extends compiled.symbols := by
  obtain ⟨plan, start, main, last, planned, unwritten, ran, rfl⟩ := lowered_seminaive lowered
  obtain ⟨other, start', evaluation, middle, infos, later, last', planned', unwritten', isEvaluation, areInfos, added,
    isRecorded, _, _⟩ := lowered_provenance alsoLowered
  obtain ⟨scheduled, rfl, _⟩ := scheduled_of planned
  obtain ⟨scheduled', same, _⟩ := scheduled_of planned'
  have sameStrata : other.strata = plan.strata := by rw [scheduled'.strata, scheduled.strata, same]
  have equal := alike_evaluation same sameStrata simple start start' main last evaluation middle
    (unwritten.symbols.trans unwritten'.symbols.symm) ran isEvaluation
  have grows := (@yields_infos (fun _ => 0) other).symbols middle
  rw [areInfos, ← equal] at grows
  rw [isRecorded]
  exact (grows_addExplanations added).trans grows

/-- The main statement of a program lowered for provenance computes the facts that the evaluation ends with. -/
theorem computes_recorded (recordable : program.Recordable)
    (lowered : (lowerProgram program .provenance debugInfo).result = .ok recorded) :
    ∃ plan : Plan, plan.program = program ∧ plan.auxiliary = 2 ∧
      Computes [] [recorded.main.tree] (AtRest plan 0)
        (EvaluatesTo recorded.symbols.ordinal (componentsOf plan.program))
        (AtRest plan (strata plan.program).length) := by
  obtain ⟨plan, evaluation, infos, planned, isEvaluation, areInfos, main⟩ := codes_of_lowered lowered
  obtain ⟨scheduled, rfl, strategy⟩ := scheduled_of planned
  refine ⟨plan, rfl, auxiliary_of_provenance strategy, ?_⟩
  have inserts : Computes [] _ (AtRest plan (strata plan.program).length) (fun before after => after = before)
      (AtRest plan (strata plan.program).length) := computes_infos recordable.apart [] areInfos
  have phases := (computes_evaluation recordable.toRegular scheduled [] isEvaluation).append inserts
  rw [main]
  refine (phases.congr fun facts final => ?_).sequence
  constructor
  · rintro ⟨_, evaluates, rfl⟩
    exact evaluates
  · exact fun evaluates => ⟨final, evaluates, rfl⟩

/-- If a program is lowered for both strategies, the one run ends without a fault if and only if the other does on
a store with two more columns, and then the outputs have the same logical content. -/
theorem strategies_agree (recordable : program.Recordable)
    (lowered : (lowerProgram program .seminaive debugInfo).result = .ok compiled)
    (alsoLowered : (lowerProgram program .provenance alsoDebug).result = .ok recorded)
    (holds : HoldsDeclared program 0 store) (pads : Pads padded store) :
    ((∃ final, Finishes compiled (.start compiled store) final) ↔
        ∃ final, Finishes recorded (.start recorded padded) final) ∧
      ∀ final last, Finishes compiled (.start compiled store) final →
        Finishes recorded (.start recorded padded) last →
          ∀ relation ∈ program.relations, relation.hasQualifier .output = true →
            {row | ∃ full ∈ last.store.rows relation.name.text, full.take relation.arity = row} =
              {row | row ∈ final.store.rows relation.name.text} := by
  have regular := recordable.toRegular
  have agrees : compiled.symbols.Agrees recorded.symbols.ordinal :=
    (Symbols.agrees_ordinal recorded.symbols).of_extends (extends_of_lowered regular.simple lowered alsoLowered)
  obtain ⟨other, sameProgram, two, recordedComputes⟩ := computes_recorded recordable alsoLowered
  obtain ⟨plan, planned, code⟩ := evaluationCode_of_lowered lowered agrees
  obtain ⟨scheduled, rfl, strategy⟩ := scheduled_of planned
  have none : plan.auxiliary = 0 := by
    rw [Plan.auxiliary, strategy]
    rfl
  have computes := computes_evaluation regular scheduled [] code
  -- Both runs start with the same facts.
  have start : AtRest plan 0 (contentsOf plan.program 0 store) store := by
    have atRest := atRest_start regular.distinct (none ▸ holds : HoldsDeclared plan.program plan.auxiliary store)
    rwa [none] at atRest
  have alsoStart : AtRest other 0 (contentsOf plan.program 0 store) padded := by
    have wide : HoldsDeclared other.program other.auxiliary padded := by
      rw [sameProgram, two]
      exact pads.holdsDeclared holds
    have atRest := atRest_start (sameProgram ▸ regular.distinct) wide
    rwa [sameProgram, two, pads.contentsOf_eq] at atRest
  rw [sameProgram] at recordedComputes
  refine ⟨⟨?_, ?_⟩, fun final last finishes finishes' relation member output => ?_⟩
  · rintro ⟨final, finishes⟩
    obtain ⟨facts, evaluates, _⟩ := computes.of_finishes start finishes
    have ends : ∃ last, Finishes recorded (.start recorded padded) last ∧ AtRest other _ facts last.store :=
      recordedComputes.exists_finishes alsoStart evaluates
    obtain ⟨last, alsoFinishes, _⟩ := ends
    exact ⟨last, alsoFinishes⟩
  · rintro ⟨last, finishes⟩
    obtain ⟨facts, evaluates, _⟩ := recordedComputes.of_finishes alsoStart finishes
    have ends : ∃ final, Finishes compiled (.start compiled store) final ∧ AtRest plan _ facts final.store :=
      computes.exists_finishes start evaluates
    obtain ⟨final, alsoFinishes, _⟩ := ends
    exact ⟨final, alsoFinishes⟩
  · obtain ⟨facts, evaluates, atRest⟩ := computes.of_finishes start finishes
    obtain ⟨more, evaluates', atRest'⟩ := recordedComputes.of_finishes alsoStart finishes'
    obtain rfl := evaluates.unique evaluates'
    have content := content_of_output regular.distinct atRest member output
    rw [none, content_eq_rows atRest none regular.once member output] at content
    have isMember : relation ∈ other.program.relations := sameProgram ▸ member
    have once : other.program.relationNames.Nodup := sameProgram ▸ regular.once
    rw [content, ← content_eq_take atRest' once isMember output]
    exact content_of_output (sameProgram ▸ regular.distinct) atRest' isMember output

/-- The edges, with some rule and some level for each of them. -/
def recordedEdges : Store :=
  Store.empty.put "edge" ⟨[[1, 2, 7, 8], [2, 3, 0, 0]], by decide⟩

theorem pads_edges : Pads recordedEdges edges := by
  constructor
  · intro table row member
    rw [edges, Store.rows_put] at member
    rw [recordedEdges, Store.rows_put]
    split at member
    · next isEdge =>
        rw [if_pos isEdge]
        rcases List.mem_pair.1 member with rfl | rfl
        · exact ⟨7, 8, List.mem_pair.2 (.inl rfl)⟩
        · exact ⟨0, 0, List.mem_pair.2 (.inr rfl)⟩
    · cases member
  · intro table full member
    rw [recordedEdges, Store.rows_put] at member
    rw [edges, Store.rows_put]
    split at member
    · next isEdge =>
        rw [if_pos isEdge]
        rcases List.mem_pair.1 member with rfl | rfl
        · exact ⟨[1, 2], List.mem_pair.2 (.inl rfl), 7, 8, rfl⟩
        · exact ⟨[2, 3], List.mem_pair.2 (.inr rfl), 0, 0, rfl⟩
    · cases member

theorem recordable_reachability : reachability.Recordable where
  toRegular := regular_reachability
  tables := by decide

theorem reachability_agrees :
    ∃ compiled recorded, (lowerProgram reachability .seminaive true).result = .ok compiled ∧
      (lowerProgram reachability .provenance true).result = .ok recorded ∧
        reachability.Recordable ∧ HoldsDeclared reachability 0 edges ∧ Pads recordedEdges edges ∧
          ((∃ final, Finishes compiled (.start compiled edges) final) ↔
            ∃ final, Finishes recorded (.start recorded recordedEdges) final) ∧
            ∀ final last, Finishes compiled (.start compiled edges) final →
              Finishes recorded (.start recorded recordedEdges) last →
                ∀ relation ∈ reachability.relations, relation.hasQualifier .output = true →
                  {row | ∃ full ∈ last.store.rows relation.name.text, full.take relation.arity = row} =
                    {row | row ∈ final.store.rows relation.name.text} := by
  obtain ⟨compiled, lowered⟩ := exists_result (show (lowerProgram reachability .seminaive true).result.isOk by
    decide +kernel)
  obtain ⟨recorded, alsoLowered⟩ := exists_result (show (lowerProgram reachability .provenance true).result.isOk by
    decide +kernel)
  exact ⟨compiled, recorded, lowered, alsoLowered, recordable_reachability, holdsDeclared_edges, pads_edges,
    strategies_agree recordable_reachability lowered alsoLowered holdsDeclared_edges pads_edges⟩

end DatalogRam
