import DatalogRam.Proofs.Analysis.Dependencies

/-!
# Relations expire after their last use

A stratum uses the relations that it computes and those that occur in the bodies of their clauses. The schedule has one
step for each stratum. `schedule_exact` says that a relation that is no output expires after the last step that uses it
and after no other, and that an output never does. So nothing that is still needed is cleared, and nothing else is kept.
-/

namespace DatalogRam

/-- Some declaration of the relation makes it an output. -/
def Program.Outputs (program : Program) (name : Name) : Prop :=
  ∃ relation ∈ program.relations, relation.name = name ∧ relation.hasQualifier .output = true

namespace Analysis

variable {program : Program}

/-- A stratum computes a relation, or the relation occurs in the body of a clause of one that it computes. -/
def Stratum.Uses (program : Program) (stratum : Stratum) (name : Name) : Prop :=
  name ∈ stratum.relations ∨ ∃ clause ∈ program.clauses, clause.head.relation ∈ stratum.relations ∧
    ∃ literal ∈ clause.body, literal.Mentions name

/-- The step at a position uses a relation. -/
def UsedAt (program : Program) (position : Nat) (name : Name) : Prop :=
  ∃ stratum, (strata program)[position]? = some stratum ∧ stratum.Uses program name

/-- The step at a position uses a relation and no later one does. -/
def LastUsedAt (program : Program) (position : Nat) (name : Name) : Prop :=
  UsedAt program position name ∧ ∀ later, position < later → ¬UsedAt program later name

/-- A relation expires after the step at a position. -/
def ExpiresAt (program : Program) (position : Nat) (name : Name) : Prop :=
  ∃ step, (schedule program (strata program))[position]? = some step ∧ name ∈ step.expired

/-- The schedule computes the strata in their order and lets each relation expire once, after its last use. -/
structure ScheduleExact (program : Program) : Prop where
  computed : (schedule program (strata program)).map Step.computed = (strata program).map Stratum.relations
  once : ((schedule program (strata program)).flatMap Step.expired).Nodup
  outputs : ∀ name, program.Outputs name → ∀ position, ¬ExpiresAt program position name
  expires_iff : ∀ name, ¬program.Outputs name → ∀ position,
    ExpiresAt program position name ↔ LastUsedAt program position name
  /-- A relation that is used at all has a last use, and only one. -/
  lastUse : ∀ name, (∃ position, UsedAt program position name) → ∃! position, LastUsedAt program position name

/-! ## The schedule -/

theorem uses_iff {stratum : Stratum} {name : Name} : stratum.Uses program name ↔ name ∈ touched program stratum := by
  simp only [Stratum.Uses, mem_touched_iff, Clause.mem_reads_iff]

theorem isOutput_iff (once : program.relationNames.Nodup) {name : Name} :
    isOutput program name = true ↔ program.Outputs name := by
  rw [isOutput]
  constructor
  · intro output
    split at output
    · next relation found =>
        obtain ⟨isRelation, sameName⟩ := Program.relation?_eq_some found
        exact ⟨relation, isRelation, sameName, output⟩
    · cases output
  · rintro ⟨relation, isRelation, rfl, output⟩
    rw [Program.relation?_of_mem once isRelation]
    exact output

theorem usedAt_iff {position : Nat} {name : Name} :
    UsedAt program position name ↔
      ∃ used, ((strata program).map (touched program))[position]? = some used ∧ name ∈ used := by
  simp [UsedAt, uses_iff]

/-- Being used last is a matter of what the steps touch. -/
theorem lastUsedAt_iff {position : Nat} {name : Name} :
    LastUsedAt program position name ↔ UsedLast ((strata program).map (touched program)) position name := by
  constructor
  · rintro ⟨usedHere, unused⟩
    exact ⟨usedAt_iff.1 usedHere, fun later used after found isUsed =>
      unused later after (usedAt_iff.2 ⟨used, found, isUsed⟩)⟩
  · rintro ⟨here, notLater⟩
    refine ⟨usedAt_iff.2 here, fun later after usedLater => ?_⟩
    obtain ⟨used, found, isUsed⟩ := usedAt_iff.1 usedLater
    exact notLater later used after found isUsed

theorem expiresAt_iff_expirations {position : Nat} {name : Name} :
    ExpiresAt program position name ↔
      ∃ expired, (expirations program (strata program))[position]? = some expired ∧ name ∈ expired := by
  rw [← map_expired_schedule]
  simp [ExpiresAt]

/-- A relation expires after a step exactly if it is no output and the step uses it for the last time. -/
theorem expiresAt_iff {position : Nat} {name : Name} :
    ExpiresAt program position name ↔ isOutput program name = false ∧ LastUsedAt program position name := by
  have passed := passed_expirations program (strata program)
  rw [expiresAt_iff_expirations, lastUsedAt_iff]
  constructor
  · rintro ⟨expired, found, member⟩
    exact ((passed.expired_iff position expired found name).1 member).symm
  · rintro ⟨notOutput, last⟩
    obtain ⟨used, atPosition, _⟩ := last.here
    have inside : position < (expirations program (strata program)).length := by
      have inUses := (List.getElem?_eq_some_iff.1 atPosition).1
      rwa [List.length_map, ← length_expirations program] at inUses
    have found := List.getElem?_eq_getElem inside
    exact ⟨_, found, (passed.expired_iff position _ found name).2 ⟨last, notOutput⟩⟩

theorem UsedAt.lt_length {position : Nat} {name : Name} (used : UsedAt program position name) :
    position < (strata program).length := by
  obtain ⟨stratum, found, _⟩ := used
  exact (List.getElem?_eq_some_iff.1 found).1

/-- Going on to a later use as long as there is one ends at the last use. -/
theorem UsedAt.exists_last {position : Nat} {name : Name} (used : UsedAt program position name) :
    ∃ last, LastUsedAt program last name := by
  by_cases later : ∃ other, position < other ∧ UsedAt program other name
  · obtain ⟨other, behind, usedLater⟩ := later
    exact usedLater.exists_last
  · exact ⟨position, used, fun other behind usedLater => later ⟨other, behind, usedLater⟩⟩
termination_by (strata program).length - position
decreasing_by
  have inside := usedLater.lt_length
  omega

theorem LastUsedAt.unique {first second : Nat} {name : Name} (isFirst : LastUsedAt program first name)
    (isSecond : LastUsedAt program second name) : first = second := by
  rcases Nat.lt_trichotomy first second with before | same | after
  · exact absurd isSecond.1 (isFirst.2 second before)
  · exact same
  · exact absurd isFirst.1 (isSecond.2 first after)

theorem schedule_exact (once : program.relationNames.Nodup) : ScheduleExact program where
  computed := map_computed_schedule program (strata program)
  once := by
    rw [List.flatMap_def, map_expired_schedule]
    exact nodup_expirations program (strata program)
  outputs name output position expires := by
    have notOutput := (expiresAt_iff.1 expires).1
    rw [(isOutput_iff once).2 output] at notOutput
    cases notOutput
  expires_iff name notOutput position := by
    rw [← isOutput_iff once, Bool.not_eq_true] at notOutput
    rw [expiresAt_iff, and_iff_right notOutput]
  lastUse name used := by
    obtain ⟨position, usedHere⟩ := used
    obtain ⟨last, isLast⟩ := usedHere.exists_last
    exact ⟨last, isLast, fun other also => also.unique isLast⟩

/-- Rows of a source become targets by way of hints. The targets are an output, and what they are compared with counts
the rows of a relation that is not declared. -/
def relay : Program where
  types := []
  relations :=
    [⟨⟨["source"]⟩, [⟨"x", ⟨["number"]⟩⟩], .standard, [.input]⟩, ⟨⟨["hint"]⟩, [⟨"x", ⟨["number"]⟩⟩], .standard, []⟩,
      ⟨⟨["middle"]⟩, [⟨"x", ⟨["number"]⟩⟩], .standard, []⟩,
      ⟨⟨["target"]⟩, [⟨"x", ⟨["number"]⟩⟩], .standard, [.output]⟩]
  clauses :=
    [⟨⟨⟨["middle"]⟩, [.var "x"]⟩, [.positive ⟨["source"]⟩ [.var "x"], .positive ⟨["hint"]⟩ [.var "x"]]⟩,
      ⟨⟨⟨["target"]⟩, [.var "x"]⟩, [.positive ⟨["middle"]⟩ [.var "x"], .negative ⟨["source"]⟩ [.var "x"],
        .comparison .lt (.var "x") (.aggregate .count none [.positive ⟨["stray"]⟩ [.unnamed]])]⟩]

/-- The source is read twice, so it outlives the hints. -/
theorem schedule_exact_relay :
    ScheduleExact relay ∧ schedule relay (strata relay) =
      [⟨[⟨["source"]⟩], []⟩, ⟨[⟨["hint"]⟩], []⟩, ⟨[⟨["middle"]⟩], [⟨["hint"]⟩]⟩,
        ⟨[⟨["target"]⟩], [⟨["middle"]⟩, ⟨["source"]⟩, ⟨["stray"]⟩]⟩] :=
  ⟨schedule_exact (by decide), by decide⟩

end Analysis

end DatalogRam
