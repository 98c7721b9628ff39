import DatalogRam.Proofs.Datalog.Occurrences
import DatalogRam.Proofs.FirstMeetings
import DatalogRam.Proofs.Query.Slots

/-!
# The order of slots

Who asks a subroutine has to pass the values of variables in the order of their slots, and both sides find that order by
themselves. `slots_exact` says what it is, for every clause and however deep its variables are: first the variables that
a user wrote, then those for unnamed positions, both by their first occurrences. Variables for levels have no slot, but
a row of their own behind those of the slots.
-/

namespace DatalogRam.Lowering

/-- A variable that a user wrote. -/
def isWrittenVariable (name : String) : Bool :=
  !isLevelVariable name && !isUnderscoreVariable name

/-- The variables of one sort in a clause, each once, by their first occurrences. -/
structure ByFirstOccurrence (clause : Clause) (sort : String → Bool) (names : List String) : Prop where
  once : names.Nodup
  mem_iff : ∀ name, name ∈ names ↔ (Phrase.clause clause).Occurs name ∧ sort name = true
  inOrder : names.Pairwise (Phrase.clause clause).FirstBefore

/-- The slots of a clause and the rows in which its variables are read. -/
structure SlotsExact (clause : Clause) : Prop where
  names : ∃ written unnamed, (Slots.ofClause clause).names = written ++ unnamed ∧
    ByFirstOccurrence clause isWrittenVariable written ∧ ByFirstOccurrence clause isUnderscoreVariable unnamed
  once : (Slots.ofClause clause).names.Nodup
  slot?_eq_some_iff : ∀ name slot, (Slots.ofClause clause).slot? name = some slot ↔
    (Slots.ofClause clause).names[slot]? = some name
  erased : ByFirstOccurrence clause isLevelVariable (Slots.ofClause clause).erased
  /-- A variable of the clause has a slot or is erased, and not both. -/
  either : ∀ name, (Phrase.clause clause).Occurs name →
    (name ∈ (Slots.ofClause clause).names ↔ name ∉ (Slots.ofClause clause).erased)
  site_of_slot : ∀ name slot, (Slots.ofClause clause).names[slot]? = some name →
    (Slots.ofClause clause).sites.definition? name = some ⟨slot, 0⟩
  site_of_erased : ∀ name position, (Slots.ofClause clause).erased[position]? = some name →
    (Slots.ofClause clause).sites.definition? name = some ⟨(Slots.ofClause clause).size + position, 0⟩
  /-- No row is that of two variables. -/
  site_unique : ∀ left right site other, (Slots.ofClause clause).sites.definition? left = some site →
    (Slots.ofClause clause).sites.definition? right = some other → site.tuple = other.tuple → left = right
  site_iff : ∀ name, (∃ site, (Slots.ofClause clause).sites.definition? name = some site) ↔
    (Phrase.clause clause).Occurs name

variable {clause : Clause} {name : String} {slots : Slots}

/-! ## Names in order -/

theorem walk_clause (clause : Clause) : (Phrase.clause clause).walk = clauseVariables clause := by
  cases clause
  rfl

theorem mem_clauseVariables_iff : name ∈ clauseVariables clause ↔ (Phrase.clause clause).Occurs name := by
  rw [← walk_clause, Phrase.mem_walk_iff]

/-- To skip the variables of other sorts and those met before leaves a sort by first occurrences. -/
theorem byFirstOccurrence (clause : Clause) (sort : String → Bool) :
    ByFirstOccurrence clause sort ((clauseVariables clause).filter sort).eraseDups := by
  have meets := meets_eraseDups ((clauseVariables clause).filter sort)
  constructor
  · exact meets.once
  · intro name
    rw [meets.mem_iff, List.mem_filter, mem_clauseVariables_iff]
  · apply meets.inOrder.imp_of_mem
    intro earlier later isEarlier isLater before
    have ofSort {name : String} (member : name ∈ ((clauseVariables clause).filter sort).eraseDups) : sort name = true :=
      (List.mem_filter.1 ((meets.mem_iff name).1 member)).2
    rw [idxOf_filter_lt_iff (ofSort isEarlier) (ofSort isLater), ← walk_clause] at before
    exact Phrase.idxOf_walk_lt_iff.1 before

theorem names_ofClause (clause : Clause) :
    (Slots.ofClause clause).names = ((clauseVariables clause).filter isWrittenVariable).eraseDups ++
      ((clauseVariables clause).filter isUnderscoreVariable).eraseDups := by
  have written := byFirstOccurrence clause isWrittenVariable
  change (((clauseVariables clause).filter isWrittenVariable).eraseDups ++
    (clauseVariables clause).filter isUnderscoreVariable).eraseDups = _
  -- The second pass meets no variable that has a slot from the first.
  have new : ((clauseVariables clause).filter isUnderscoreVariable).removeAll
      ((clauseVariables clause).filter isWrittenVariable).eraseDups =
      (clauseVariables clause).filter isUnderscoreVariable := by
    rw [List.removeAll]
    apply List.filter_eq_self.2
    intro name member
    simp [isWrittenVariable, (List.mem_filter.1 member).2]
  rw [List.eraseDups_append, new, eraseDups_eq_self written.once]

theorem mem_names_iff : name ∈ (Slots.ofClause clause).names ↔
    (Phrase.clause clause).Occurs name ∧ isLevelVariable name = false := by
  rw [← mem_clauseVariables_iff]
  constructor
  · intro member
    refine ⟨?_, Bool.eq_false_iff.2 fun isLevel => not_mem_names_of_level isLevel member⟩
    rw [names_ofClause, List.mem_append, List.mem_eraseDups, List.mem_eraseDups] at member
    rcases member with written | unnamed
    · exact List.mem_of_mem_filter written
    · exact List.mem_of_mem_filter unnamed
  · exact fun ⟨isVariable, notLevel⟩ => mem_names_ofClause isVariable notLevel

theorem mem_erased_iff : name ∈ (Slots.ofClause clause).erased ↔
    (Phrase.clause clause).Occurs name ∧ isLevelVariable name = true :=
  (byFirstOccurrence clause isLevelVariable).mem_iff name

theorem nodup_names_ofClause (clause : Clause) : (Slots.ofClause clause).names.Nodup := by
  have written := byFirstOccurrence clause isWrittenVariable
  have unnamed := byFirstOccurrence clause isUnderscoreVariable
  rw [names_ofClause]
  apply written.once.append unnamed.once
  intro name isWritten isUnnamed
  have sort := ((written.mem_iff name).1 isWritten).2
  simp [isWrittenVariable, ((unnamed.mem_iff name).1 isUnnamed).2] at sort

theorem nodup_rows_ofClause (clause : Clause) :
    ((Slots.ofClause clause).names ++ (Slots.ofClause clause).erased).Nodup := by
  apply (nodup_names_ofClause clause).append (byFirstOccurrence clause isLevelVariable).once
  intro name hasSlot isErased
  exact not_mem_names_of_level (mem_erased_iff.1 isErased).2 hasSlot

/-! ## Rows -/

/-- In a list without repetitions, looking for an element inverts reading at a position. -/
theorem idxOf?_eq_some_iff_of_nodup {names : List String} (once : names.Nodup) {position : Nat} :
    names.idxOf? name = some position ↔ names[position]? = some name := by
  rw [List.idxOf?_eq_some_iff, List.getElem?_eq_some_iff]
  constructor
  · rintro ⟨inside, found, _⟩
    exact ⟨inside, found⟩
  · rintro ⟨inside, rfl⟩
    refine ⟨inside, rfl, fun earlier before same => ?_⟩
    have equal := (once.getElem_inj_iff).1 same
    omega

/-- A variable is read in the row at its position among the names and those erased behind them. -/
theorem definition?_sites_iff (once : (slots.names ++ slots.erased).Nodup) {site : Site} :
    slots.sites.definition? name = some site ↔
      (slots.names ++ slots.erased)[site.tuple]? = some name ∧ site.column = 0 := by
  rw [definition?_sites, Option.map_eq_some_iff]
  constructor
  · rintro ⟨position, found, rfl⟩
    exact ⟨(idxOf?_eq_some_iff_of_nodup once).1 found, rfl⟩
  · rintro ⟨found, isFirst⟩
    obtain ⟨tuple, column⟩ := site
    cases isFirst
    exact ⟨tuple, (idxOf?_eq_some_iff_of_nodup once).2 found, rfl⟩

theorem slots_exact (clause : Clause) : SlotsExact clause where
  names := ⟨_, _, names_ofClause clause, byFirstOccurrence clause _, byFirstOccurrence clause _⟩
  once := nodup_names_ofClause clause
  slot?_eq_some_iff name slot := idxOf?_eq_some_iff_of_nodup (nodup_names_ofClause clause)
  erased := byFirstOccurrence clause isLevelVariable
  either name occurs := by
    rw [mem_names_iff, mem_erased_iff]
    simp [occurs]
  site_of_slot name slot found := by
    refine (definition?_sites_iff (nodup_rows_ofClause clause)).2 ⟨?_, rfl⟩
    rw [List.getElem?_append_left (List.getElem?_eq_some_iff.1 found).1]
    exact found
  site_of_erased name position found := by
    refine (definition?_sites_iff (nodup_rows_ofClause clause)).2 ⟨?_, rfl⟩
    change (_ ++ _)[(Slots.ofClause clause).names.length + position]? = _
    rw [List.getElem?_append_right (Nat.le_add_right _ _), Nat.add_sub_cancel_left]
    exact found
  site_unique left right site other isLeft isRight same := by
    have leftName := ((definition?_sites_iff (nodup_rows_ofClause clause)).1 isLeft).1
    have rightName := ((definition?_sites_iff (nodup_rows_ofClause clause)).1 isRight).1
    rw [same, rightName] at leftName
    exact (Option.some.inj leftName).symm
  site_iff name := by
    have isRow : (∃ site, (Slots.ofClause clause).sites.definition? name = some site) ↔
        name ∈ (Slots.ofClause clause).names ++ (Slots.ofClause clause).erased := by
      rw [definition?_sites, List.mem_iff_getElem?]
      simp only [Option.map_eq_some_iff, idxOf?_eq_some_iff_of_nodup (nodup_rows_ofClause clause)]
      constructor
      · rintro ⟨_, position, found, _⟩
        exact ⟨position, found⟩
      · rintro ⟨position, found⟩
        exact ⟨_, position, found, rfl⟩
    rw [isRow, List.mem_append, mem_names_iff, mem_erased_iff, ← and_or_left]
    cases isLevelVariable name <;> simp

/-- Unnamed positions stand behind the variables of an aggregate, although the walk meets one of them first. -/
example :
    (Slots.ofClause ⟨⟨⟨["total"]⟩, [.var "x", .var "sum"]⟩,
      [.positive ⟨["item"]⟩ [.var "+underscore_0", .var "x"], .positive ⟨["item"]⟩ [.var "@level_num_0", .var "x"],
        .comparison .eq (.var "sum") (.aggregate .sum (some (.var "y"))
          [.positive ⟨["price"]⟩ [.var "x", .var "+underscore_1", .var "y"]])]⟩) =
      ⟨["x", "sum", "y", "+underscore_0", "+underscore_1"], ["@level_num_0"]⟩ := by
  decide

end DatalogRam.Lowering
