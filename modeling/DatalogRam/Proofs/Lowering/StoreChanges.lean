import DatalogRam.Proofs.Evaluation.Infos
import DatalogRam.Proofs.Lowering.StratumQueries
import DatalogRam.Proofs.Machine.History

/-!
# How evaluation changes a store

The code of a stratum inserts rows into the tables of its relations and of their new rows, and manages the tables for
rounds. Under provenance this is all that the evaluation does, and what follows it fills the info relations.
-/

namespace DatalogRam.Lowering

open Machine Ram Analysis

/-- The changes by which relations are evaluated. -/
inductive EvaluationChange (names : List Name) : Change → Prop
  | insert {name : Name} {row : Row} (member : name ∈ names) : EvaluationChange names (.insert name.text row)
  | find {name : Name} {row : Row} (member : name ∈ names) : EvaluationChange names (.insert (freshName name) row)
  | seed {name : Name} (member : name ∈ names) : EvaluationChange names (.merge name.text (deltaName name))
  | extend {name : Name} (member : name ∈ names) : EvaluationChange names (.merge (freshName name) name.text)
  | exchange {name : Name} (member : name ∈ names) : EvaluationChange names (.swap (deltaName name) (freshName name))
  | clearDelta {name : Name} (member : name ∈ names) : EvaluationChange names (.clear (deltaName name))
  | clearFresh {name : Name} (member : name ∈ names) : EvaluationChange names (.clear (freshName name))

/-- The changes that fill info relations. -/
inductive InfoChange (program : Program) : Change → Prop
  | describe {table : String} {row : Row} (member : table ∈ infoTables program) : InfoChange program (.insert table row)

section Tables

variable {names : List Name} {change : Change} {table : String}

theorem EvaluationChange.mono {more : List Name} (subset : names ⊆ more) (isChange : EvaluationChange names change) :
    EvaluationChange more change := by
  cases isChange with
  | insert member => exact .insert (subset member)
  | find member => exact .find (subset member)
  | seed member => exact .seed (subset member)
  | extend member => exact .extend (subset member)
  | exchange member => exact .exchange (subset member)
  | clearDelta member => exact .clearDelta (subset member)
  | clearFresh member => exact .clearFresh (subset member)

/-- Evaluation changes tables of the evaluated relations only. -/
theorem EvaluationChange.tables (isChange : EvaluationChange names change) (changed : table ∈ change.tables) :
    ∃ name ∈ names, table ∈ tablesOf name := by
  cases isChange with
  | insert member | find member | seed member | extend member | exchange member | clearDelta member
    | clearFresh member =>
      exact ⟨_, member, by simp_all [Change.tables, tablesOf]⟩

/-- Only rows for rounds are taken away. -/
theorem EvaluationChange.displaced (isChange : EvaluationChange names change) (taken : table ∈ change.displaced) :
    ∃ name ∈ names, table = deltaName name ∨ table = freshName name := by
  cases isChange with
  | insert | find | seed | extend => cases taken
  | exchange member | clearDelta member | clearFresh member =>
      exact ⟨_, member, by simp_all [Change.displaced]⟩

end Tables

variable {ordinal : String → Int64} {plan : Plan} {clause : Clause} {id : Nat} {version : Version}
variable {allowed : Change → Prop} {statement : Stmt}

theorem allows_withText {query : Stmt} (allows : Allows allowed query) :
    Allows allowed (withText plan clause query) := by
  rw [withText]
  split <;> exact allows

/-- The insertion of its head is the only change that a clause makes. -/
theorem allows_clauseCode (insert : ∀ row, allowed (.insert clause.head.relation.text row))
    (find : ∀ row, allowed (.insert (freshName clause.head.relation) row))
    (code : clauseCode ordinal plan clause id version = some statement) : Allows allowed statement := by
  obtain ⟨operation, rfl, permits⟩ := @of_clauseCode ordinal plan clause id version (Permits allowed) statement
    (fun _ _ permits => permits) (fun _ _ _ _ _ _ permits => permits) (fun _ _ _ permits => permits)
    (fun sites level operation isHead => by
      obtain ⟨_, _, _, _, rfl⟩ := headCode_eq_some isHead
      refine of_underGuard (fun _ _ permits => permits) (fun row => ?_) _
      split
      · exact find row
      · exact insert row) code
  exact allows_withText permits

theorem composes_allows (stratum : Stratum) : Composes (Allows (EvaluationChange stratum.relations)) stratum where
  sequence := fun _ each => allAllow_iff.2 each
  loop := fun _ allows => allows
  exit := fun _ => trivial
  manages _ name isName statement member := by
    simp only [seedCode, advanceCode, clearRoundsCode, List.mem_cons, List.mem_append, List.not_mem_nil,
      or_false] at member
    rcases member with rfl | (rfl | rfl | rfl) | rfl | rfl
    · exact .seed isName
    · exact .extend isName
    · exact .exchange isName
    · exact .clearFresh isName
    · exact .clearDelta isName
    · exact .clearFresh isName

/-- The code of a stratum changes a store only as the evaluation of its relations does. -/
theorem allows_stratumCode {stratum : Stratum} (code : stratumCode ordinal plan stratum = some statement) :
    Allows (EvaluationChange stratum.relations) statement :=
  of_stratumCode (composes_allows stratum)
    (fun _ isRun _ isCode => allows_clauseCode (fun _ => .insert isRun.head) (fun _ => .find isRun.head) isCode) code

/-- Under provenance nothing is cleared after the strata. -/
theorem allows_evaluationCode (scheduled : plan.Scheduled) (strategy : plan.strategy = .provenance)
    (code : evaluationCode ordinal plan = some statement) :
    Allows (EvaluationChange plan.program.relationNames) statement := by
  obtain ⟨steps, rfl, length, ofStratum⟩ := evaluationCode_eq_some code
  apply allAllow_iff.2
  intro step member
  obtain ⟨position, inside, rfl⟩ := List.mem_iff_getElem.1 member
  obtain ⟨stratum, isStratum⟩ : ∃ stratum, plan.strata[position]? = some stratum :=
    ⟨_, List.getElem?_eq_getElem (length ▸ inside)⟩
  obtain ⟨evaluation, isEvaluation, isStep⟩ := ofStratum position stratum isStratum
  rw [List.getElem?_eq_getElem inside, Option.some.injEq] at isStep
  rw [scheduled.strata] at isStratum
  have declared : stratum.relations ⊆ plan.program.relationNames := fun name isName =>
    InStratum.declared ⟨stratum, isStratum, isName⟩
  rw [isStep, strategy]
  exact ⟨Allows.mono (fun _ => EvaluationChange.mono declared) _ (allows_stratumCode isEvaluation), trivial, trivial⟩

theorem allows_infosCode (code : infosCode ordinal plan = some statement) :
    Allows (InfoChange plan.program) statement := by
  obtain ⟨queries, areQueries, rfl⟩ := Option.map_eq_some_iff.1 code
  apply allAllow_iff.2
  intro query member
  obtain ⟨entry, isEntry, isQuery⟩ := mem_of_mapM areQueries member
  obtain ⟨description, _, rfl⟩ := infoCode_eq_some isEntry isQuery
  exact fun row => .describe (List.mem_map.2 ⟨entry, isEntry, rfl⟩)

/-- The changes of a run for provenance are those of the evaluation and of the descriptions of rules. -/
theorem allows_lowered {program : Program} {debugInfo : Bool} {compiled : Ram.Program}
    (lowered : (lowerProgram program .provenance debugInfo).result = .ok compiled) :
    Allows (fun change => EvaluationChange program.relationNames change ∨ InfoChange program change)
      compiled.main.tree := by
  obtain ⟨plan, evaluation, infos, planned, isEvaluation, areInfos, main⟩ := codes_of_lowered lowered
  obtain ⟨scheduled, rfl, strategy⟩ := scheduled_of planned
  rw [main]
  exact ⟨Allows.mono (fun _ => .inl) _ (allows_evaluationCode scheduled strategy isEvaluation),
    Allows.mono (fun _ => .inr) _ (allows_infosCode areInfos), trivial⟩

end DatalogRam.Lowering
