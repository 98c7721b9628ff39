import DatalogRam.Analysis.Schedule
import DatalogRam.Proofs.Analysis.Collection
import DatalogRam.Proofs.Analysis.Recursion

/-!
# What expires is not needed later

On the way back through the steps of a schedule, what is alive is what the steps behind use. So a relation expires
after a step exactly if it is no output, the step computes or reads it, and no later step does.
-/

namespace DatalogRam.Analysis

variable {program : Program}

/-! ## What a step touches -/

/-- What the clauses of a stratum read, in the order of a walk over its relations and their clauses. -/
def Stratum.reads (program : Program) (stratum : Stratum) : List Name :=
  stratum.relations.flatMap fun relation => (program.clausesOf relation).flatMap fun entry => entry.1.reads

theorem touched_eq_foldl (stratum : Stratum) :
    touched program stratum = (stratum.reads program).foldl touch stratum.relations := by
  rw [touched, Stratum.reads, List.foldl_flatMap]
  simp only [List.foldl_flatMap]

/-- Each relation stands where it is met first. -/
theorem touched_eq_eraseDups {stratum : Stratum} (once : stratum.relations.Nodup) :
    touched program stratum = (stratum.relations ++ stratum.reads program).eraseDups := by
  rw [touched_eq_foldl, foldl_touch once]

theorem mem_touched_iff {stratum : Stratum} {name : Name} :
    name ∈ touched program stratum ↔
      name ∈ stratum.relations ∨
        ∃ clause ∈ program.clauses, clause.head.relation ∈ stratum.relations ∧ name ∈ clause.reads := by
  rw [touched_eq_foldl, mem_foldl_touch, Stratum.reads, List.mem_flatMap]
  refine or_congr_right ⟨?_, ?_⟩
  · rintro ⟨relation, member, found⟩
    obtain ⟨⟨clause, id⟩, own, reads⟩ := List.mem_flatMap.1 found
    obtain ⟨position, rfl⟩ := Program.mem_clausesOf.1 own
    exact ⟨clause, List.mem_of_getElem? position, member, reads⟩
  · rintro ⟨clause, isClause, member, reads⟩
    obtain ⟨id, position⟩ := List.getElem?_of_mem isClause
    exact ⟨clause.head.relation, member,
      List.mem_flatMap.2 ⟨(clause, id), Program.mem_clausesOf.2 ⟨position, rfl⟩, reads⟩⟩

/-! ## Meeting the relations of a step -/

namespace Expiry

variable {expiry : Expiry} {name other : Name}

theorem mem_alive_meet : other ∈ (expiry.meet program name).alive ↔ other ∈ expiry.alive ∨ other = name := by
  rw [meet]
  split
  · next isAlive => exact ⟨.inl, fun found => found.elim id fun same => same ▸ List.contains_iff_mem.1 isAlive⟩
  · exact List.mem_cons.trans or_comm

theorem mem_expired_meet :
    other ∈ (expiry.meet program name).expired ↔
      other ∈ expiry.expired ∨ other = name ∧ other ∉ expiry.alive ∧ isOutput program other = false := by
  rw [meet]
  split
  · next isAlive =>
      refine ⟨.inl, fun found => found.elim id ?_⟩
      rintro ⟨rfl, isNew, _⟩
      exact absurd (List.contains_iff_mem.1 isAlive) isNew
  · next isNew =>
      have isNew : name ∉ expiry.alive := fun member => isNew (List.contains_iff_mem.2 member)
      split
      · next output =>
          refine ⟨.inl, fun found => found.elim id ?_⟩
          rintro ⟨rfl, _, notOutput⟩
          exact absurd output (by simp [notOutput])
      · next notOutput =>
          rw [List.mem_append, List.mem_singleton]
          refine or_congr_right ⟨?_, And.left⟩
          rintro rfl
          exact ⟨rfl, isNew, by simpa using notOutput⟩

theorem mem_alive_foldl {used : List Name} :
    other ∈ (used.foldl (meet program) expiry).alive ↔ other ∈ expiry.alive ∨ other ∈ used := by
  induction used generalizing expiry with
  | nil => simp
  | cons name used ih => rw [List.foldl_cons, ih, mem_alive_meet, List.mem_cons, or_assoc]

/-- What expires is what is met for the first time and is no output. -/
theorem mem_expired_foldl {used : List Name} :
    other ∈ (used.foldl (meet program) expiry).expired ↔
      other ∈ expiry.expired ∨ other ∈ used ∧ other ∉ expiry.alive ∧ isOutput program other = false := by
  induction used generalizing expiry with
  | nil => simp
  | cons name used ih =>
      rw [List.foldl_cons, ih, mem_expired_meet, mem_alive_meet, List.mem_cons]
      tauto

/-- What expires has been met, and is listed once. -/
structure Sound (expiry : Expiry) : Prop where
  met : expiry.expired ⊆ expiry.alive
  once : expiry.expired.Nodup

theorem Sound.meet (sound : expiry.Sound) (name : Name) : (expiry.meet program name).Sound := by
  rw [Expiry.meet]
  split
  · exact sound
  · next isNew =>
      have isNew : name ∉ expiry.expired := fun member => isNew (List.contains_iff_mem.2 (sound.met member))
      split
      · exact ⟨List.subset_cons_of_subset name sound.met, sound.once⟩
      · constructor
        · exact List.append_subset.2 ⟨List.subset_cons_of_subset name sound.met, by simp⟩
        · exact sound.once.append (List.nodup_singleton name) (by simpa using isNew)

theorem Sound.foldl (sound : expiry.Sound) (used : List Name) : (used.foldl (Expiry.meet program) expiry).Sound := by
  induction used generalizing expiry with
  | nil => exact sound
  | cons name used ih => exact ih (sound.meet name)

end Expiry

/-! ## The way back -/

/-- A step at a position uses a relation and no later one does. -/
structure UsedLast (uses : List (List Name)) (position : Nat) (name : Name) : Prop where
  here : ∃ used, uses[position]? = some used ∧ name ∈ used
  notLater : ∀ later used, position < later → uses[later]? = some used → name ∉ used

theorem usedLast_zero {used : List Name} {uses : List (List Name)} {name : Name} :
    UsedLast (used :: uses) 0 name ↔ name ∈ used ∧ name ∉ uses.flatten := by
  constructor
  · rintro ⟨⟨_, same, isUsed⟩, notLater⟩
    cases same
    refine ⟨isUsed, fun later => ?_⟩
    obtain ⟨other, isOther, inOther⟩ := List.mem_flatten.1 later
    obtain ⟨position, found⟩ := List.getElem?_of_mem isOther
    exact notLater (position + 1) other (Nat.succ_pos position) found inOther
  · rintro ⟨isUsed, unused⟩
    refine ⟨⟨used, rfl, isUsed⟩, fun later other after found inOther => ?_⟩
    obtain ⟨position, rfl⟩ := Nat.exists_eq_succ_of_ne_zero (Nat.ne_of_gt after)
    exact unused (List.mem_flatten.2 ⟨other, List.mem_of_getElem? found, inOther⟩)

theorem usedLast_succ {used : List Name} {uses : List (List Name)} {position : Nat} {name : Name} :
    UsedLast (used :: uses) (position + 1) name ↔ UsedLast uses position name := by
  constructor
  · rintro ⟨here, notLater⟩
    exact ⟨here, fun later other after => notLater (later + 1) other (Nat.succ_lt_succ after)⟩
  · rintro ⟨here, notLater⟩
    refine ⟨here, fun later other after found => ?_⟩
    obtain ⟨before, rfl⟩ := Nat.exists_eq_succ_of_ne_zero (Nat.ne_of_gt (Nat.zero_lt_of_lt after))
    exact notLater before other (Nat.lt_of_succ_lt_succ after) found

/-- The way back has passed steps: what they use is alive, and each relation in them has expired after its last use,
unless it is an output. -/
structure Retreat.Passed (program : Program) (uses : List (List Name)) (retreat : Retreat) : Prop where
  alive_iff : ∀ name, name ∈ retreat.alive ↔ name ∈ uses.flatten
  length : retreat.expirations.length = uses.length
  expired_iff : ∀ position expired, retreat.expirations[position]? = some expired →
    ∀ name, name ∈ expired ↔ UsedLast uses position name ∧ isOutput program name = false
  once : retreat.expirations.flatten.Nodup

namespace Retreat.Passed

variable {uses : List (List Name)} {retreat : Retreat}

theorem start : Passed program [] ⟨[], []⟩ where
  alive_iff name := by simp
  length := rfl
  expired_iff position expired found := by cases found
  once := by simp

theorem alive_of_expired (passed : retreat.Passed program uses) {name : Name}
    (member : name ∈ retreat.expirations.flatten) : name ∈ retreat.alive := by
  obtain ⟨expired, isExpired, inExpired⟩ := List.mem_flatten.1 member
  obtain ⟨position, found⟩ := List.getElem?_of_mem isExpired
  obtain ⟨⟨used, atPosition, isUsed⟩, _⟩ := ((passed.expired_iff position expired found name).1 inExpired).1
  exact (passed.alive_iff name).2 (List.mem_flatten.2 ⟨used, List.mem_of_getElem? atPosition, isUsed⟩)

/-- Passing one step more. What is met there for the first time is used by no later step. -/
theorem pass (passed : retreat.Passed program uses) (used : List Name) :
    (retreat.pass program used).Passed program (used :: uses) := by
  have first (name : Name) : name ∈ (used.foldl (Expiry.meet program) ⟨retreat.alive, []⟩).expired ↔
      name ∈ used ∧ name ∉ retreat.alive ∧ isOutput program name = false :=
    Expiry.mem_expired_foldl.trans (or_iff_right List.not_mem_nil)
  constructor
  case alive_iff =>
    intro name
    rw [Retreat.pass, Expiry.mem_alive_foldl, passed.alive_iff, List.flatten_cons, List.mem_append, or_comm]
  case length => exact congrArg Nat.succ passed.length
  case expired_iff =>
    intro position expired found name
    cases position with
    | zero =>
        cases found
        rw [first, passed.alive_iff, usedLast_zero, and_assoc]
    | succ position => exact (passed.expired_iff position expired found name).trans (and_congr_left' usedLast_succ.symm)
  case once =>
    have here : Expiry.Sound ⟨retreat.alive, []⟩ := ⟨List.nil_subset _, List.nodup_nil⟩
    refine (here.foldl used).once.append passed.once fun name isFirst isLater => ?_
    exact ((first name).1 isFirst).2.1 (passed.alive_of_expired isLater)

theorem foldr (program : Program) (uses : List (List Name)) :
    (uses.foldr (Retreat.pass program) ⟨[], []⟩).Passed program uses := by
  induction uses with
  | nil => exact start
  | cons used uses ih => exact ih.pass used

end Retreat.Passed

/-! ## Expirations -/

theorem passed_expirations (program : Program) (strata : List Stratum) :
    ((strata.map (touched program)).foldr (Retreat.pass program) ⟨[], []⟩).Passed program
      (strata.map (touched program)) :=
  .foldr program _

@[simp] theorem length_expirations (program : Program) (strata : List Stratum) :
    (expirations program strata).length = strata.length :=
  (passed_expirations program strata).length.trans (List.length_map _)

theorem nodup_expirations (program : Program) (strata : List Stratum) : (expirations program strata).flatten.Nodup :=
  (passed_expirations program strata).once

theorem expirations_getElem? {position : Nat} {expired : List Name}
    (found : (expirations program (strata program))[position]? = some expired) {name : Name}
    (member : name ∈ expired) :
    isOutput program name = false ∧
      ∀ later stratum, position < later → (strata program)[later]? = some stratum →
        name ∉ touched program stratum := by
  obtain ⟨last, notOutput⟩ := ((passed_expirations program (strata program)).expired_iff position expired found name).1
    member
  exact ⟨notOutput, fun later stratum after atLater => last.notLater later _ after (by simp [atLater])⟩

/-- What expires after a stratum is computed or read by it. -/
theorem touched_of_expirations {position : Nat} {expired : List Name}
    (found : (expirations program (strata program))[position]? = some expired) {name : Name}
    (member : name ∈ expired) :
    ∃ stratum, (strata program)[position]? = some stratum ∧ name ∈ touched program stratum := by
  obtain ⟨⟨⟨used, atPosition, isUsed⟩, _⟩, _⟩ :=
    ((passed_expirations program (strata program)).expired_iff position expired found name).1 member
  rw [List.getElem?_map, Option.map_eq_some_iff] at atPosition
  obtain ⟨stratum, isStratum, rfl⟩ := atPosition
  exact ⟨stratum, isStratum, isUsed⟩

/-- The schedule has what expires after each stratum. -/
theorem map_expired_schedule (program : Program) (strata : List Stratum) :
    (schedule program strata).map Step.expired = expirations program strata := by
  have second : (strata.zip (expirations program strata)).map Prod.snd = expirations program strata :=
    List.map_snd_zip (by simp)
  rw [schedule, List.map_map]
  exact second

/-- The schedule computes the strata in their order. -/
theorem map_computed_schedule (program : Program) (strata : List Stratum) :
    (schedule program strata).map Step.computed = strata.map Stratum.relations := by
  have first : (strata.zip (expirations program strata)).map Prod.fst = strata := List.map_fst_zip (by simp)
  rw [schedule, List.map_map]
  exact (List.map_map (g := Stratum.relations) (f := Prod.fst)).symm.trans (congrArg _ first)

end DatalogRam.Analysis
