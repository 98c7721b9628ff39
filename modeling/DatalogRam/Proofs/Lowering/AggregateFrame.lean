import DatalogRam.Proofs.Lowering.Frame
import DatalogRam.Proofs.Lowering.QueryCode

/-!
# Where a clause with aggregates reads its values

The aggregates of a clause are bound behind its positive body atoms, one row each. A variable that is no argument of
an atom is read at an aggregate if the body equates it with one. `frameOf_eq` says that nothing else is in a frame.
-/

namespace DatalogRam.Lowering

open Ram

theorem Argument.mem_aggregatesOfAll {aggregate : Aggregate} {args : List Argument} :
    aggregate ∈ Argument.aggregatesOfAll args ↔ ∃ arg ∈ args, aggregate ∈ Argument.aggregates arg := by
  induction args with
  | nil => simp [Argument.aggregatesOfAll]
  | cons arg args ih => simp [Argument.aggregatesOfAll, ih]

/-- A literal that equates a variable with an aggregate. -/
inductive Equates (name : String) (aggregate : Aggregate) : Literal → Prop where
  | left : Equates name aggregate (.comparison .eq (.var name) aggregate.toArgument)
  | right : Equates name aggregate (.comparison .eq aggregate.toArgument (.var name))

instance (name : String) (aggregate : Aggregate) (literal : Literal) : Decidable (Equates name aggregate literal) :=
  decidable_of_iff
    (literal = .comparison .eq (.var name) aggregate.toArgument ∨
      literal = .comparison .eq aggregate.toArgument (.var name))
    ⟨fun same => same.elim (fun left => left ▸ .left) fun right => right ▸ .right,
      fun equates => by cases equates <;> simp⟩

/-- The sites of a clause's variables and aggregates, before the variables that are equated with aggregates. -/
def aggregateSitesOf (clause : Clause) : Sites :=
  (clauseAggregates clause).zipIdx.foldl
    (fun sites (aggregate, position) => sites.setAggregate aggregate ⟨clause.positiveAtoms.length + position, 0⟩)
    (atomSites clause.positiveAtoms)

/-- The frame of a clause. -/
def clauseFrame (clause : Clause) : Frame :=
  ⟨clause.body.foldl addResultSite (aggregateSitesOf clause), clause.positiveAtoms, clauseAggregates clause⟩

variable {plan : Plan} {clause : Clause}

/-- A clause has a frame if its positive atoms name declared relations. -/
theorem frameOf_eq (plan : Plan) (clause : Clause) :
    (frameOf plan clause).toOption =
      if clause.positiveAtoms.all (fun atom => plan.program.declares atom.relation) then some (clauseFrame clause)
      else none :=
  toOption_requireAll plan clause.positiveAtoms (clauseFrame clause)

theorem frameOf_eq_some {frame : Frame} (found : (frameOf plan clause).toOption = some frame) :
    frame = clauseFrame clause ∧ ∀ atom ∈ clause.positiveAtoms, plan.program.declares atom.relation = true := by
  rw [frameOf_eq] at found
  split at found
  · next declared => exact ⟨(Option.some.inj found).symm, List.all_eq_true.1 declared⟩
  · cases found

/-! ## Aggregates -/

theorem aggregate?_foldl {aggregates : List (Aggregate × Nat)} {sites : Sites} {tuples : Nat} {aggregate : Aggregate}
    {site : Site}
    (found : (aggregates.foldl (fun sites entry => sites.setAggregate entry.1 ⟨tuples + entry.2, 0⟩) sites).aggregate?
      aggregate = some site) :
    sites.aggregate? aggregate = some site ∨
      ∃ position, (aggregate, position) ∈ aggregates ∧ site = ⟨tuples + position, 0⟩ := by
  induction aggregates generalizing sites with
  | nil => exact .inl found
  | cons entry rest ih =>
      rcases ih found with before | ⟨position, member, isSite⟩
      · change List.lookup aggregate ((entry.1, _) :: sites.aggregates) = _ at before
        rw [List.lookup_cons] at before
        by_cases same : aggregate = entry.1
        · subst same
          rw [beq_self_eq_true] at before
          exact .inr ⟨entry.2, List.mem_cons_self, (Option.some.inj before).symm⟩
        · rw [beq_false_of_ne same] at before
          exact .inl before
      · exact .inr ⟨position, List.mem_cons_of_mem _ member, isSite⟩

theorem named_foldl (aggregates : List (Aggregate × Nat)) (sites : Sites) (tuples : Nat) :
    (aggregates.foldl (fun sites entry => sites.setAggregate entry.1 ⟨tuples + entry.2, 0⟩) sites).named =
      sites.named := by
  induction aggregates generalizing sites with
  | nil => rfl
  | cons entry rest ih => exact ih _

theorem aggregates_addResultSite (sites : Sites) (literal : Literal) :
    (addResultSite sites literal).aggregates = sites.aggregates := by
  have bindResult (name : String) (aggregate : Aggregate) :
      (addResultSite.bindResult sites name aggregate).aggregates = sites.aggregates := by
    rw [addResultSite.bindResult]
    split
    · rfl
    · split <;> rfl
  unfold addResultSite
  split
  · exact bindResult _ _
  · exact bindResult _ _
  · rfl

theorem aggregates_foldl_addResultSite (literals : List Literal) (sites : Sites) :
    (literals.foldl addResultSite sites).aggregates = sites.aggregates := by
  induction literals generalizing sites with
  | nil => rfl
  | cons literal rest ih => rw [List.foldl_cons, ih, aggregates_addResultSite]

theorem aggregates_atomSites (atoms : List Atom) : (atomSites atoms).aggregates = [] := by
  have unchanged (found : List (String × Site)) (sites : Sites) :
      (found.foldl (fun sites occurrence => sites.addVariable occurrence.1 occurrence.2) sites).aggregates =
        sites.aggregates := by
    induction found generalizing sites with
    | nil => rfl
    | cons occurrence rest ih => exact ih _
  rw [atomSites_eq, unchanged]
  rfl

/-- An aggregate of a clause is read behind the rows of the atoms. -/
theorem aggregate?_aggregateSitesOf {aggregate : Aggregate} {site : Site}
    (found : (aggregateSitesOf clause).aggregate? aggregate = some site) :
    ∃ position, (clauseAggregates clause)[position]? = some aggregate ∧
      site = ⟨clause.positiveAtoms.length + position, 0⟩ := by
  rcases aggregate?_foldl found with before | ⟨position, member, isSite⟩
  · rw [Sites.aggregate?, aggregates_atomSites] at before
    cases before
  · exact ⟨position, List.mem_zipIdx_iff_getElem?.1 member, isSite⟩

theorem aggregates_clauseFrame : (clauseFrame clause).sites.aggregates = (aggregateSitesOf clause).aggregates :=
  aggregates_foldl_addResultSite _ _

/-! ## Variables -/

theorem definition?_aggregateSitesOf (name : String) :
    (aggregateSitesOf clause).definition? name = (atomSites clause.positiveAtoms).definition? name := by
  rw [Sites.definition?, aggregateSitesOf, named_foldl]
  rfl

/-- A literal defines at most the variable that it equates with an aggregate. -/
theorem definition?_addResultSite {sites : Sites} {literal : Literal} {name : String} {site : Site}
    (found : (addResultSite sites literal).definition? name = some site) :
    sites.definition? name = some site ∨
      sites.definition? name = none ∧
        ∃ aggregate, Equates name aggregate literal ∧ sites.aggregate? aggregate = some site := by
  have bindResult {other : String} {aggregate : Aggregate}
      (bound : (addResultSite.bindResult sites other aggregate).definition? name = some site) :
      sites.definition? name = some site ∨
        sites.definition? name = none ∧ name = other ∧ sites.aggregate? aggregate = some site := by
    rw [addResultSite.bindResult] at bound
    split at bound
    · exact .inl bound
    · split at bound
      · next isSite =>
          rw [Sites.definition?_addVariable] at bound
          cases before : sites.definition? name with
          | some earlier =>
              rw [before, Option.some_or] at bound
              exact .inl bound
          | none =>
              rw [before, Option.none_or] at bound
              split at bound
              · next same => exact .inr ⟨rfl, same, isSite.trans bound⟩
              · cases bound
      · exact .inl bound
  unfold addResultSite at found
  split at found
  · rcases bindResult found with before | ⟨none, rfl, isSite⟩
    · exact .inl before
    · exact .inr ⟨none, _, .left, isSite⟩
  · rcases bindResult found with before | ⟨none, rfl, isSite⟩
    · exact .inl before
    · exact .inr ⟨none, _, .right, isSite⟩
  · exact .inl found

/-- A variable that is defined stays where it is. -/
theorem definition?_addResultSite_of_some {sites : Sites} {name : String} {site : Site}
    (defined : sites.definition? name = some site) (literal : Literal) :
    (addResultSite sites literal).definition? name = some site := by
  have bindResult (other : String) (aggregate : Aggregate) :
      (addResultSite.bindResult sites other aggregate).definition? name = some site := by
    rw [addResultSite.bindResult]
    split
    · exact defined
    · split
      · rw [Sites.definition?_addVariable, defined, Option.some_or]
      · exact defined
  unfold addResultSite
  split
  · exact bindResult _ _
  · exact bindResult _ _
  · exact defined

theorem definition?_foldl_addResultSite_of_some {literals : List Literal} {sites : Sites} {name : String} {site : Site}
    (defined : sites.definition? name = some site) :
    (literals.foldl addResultSite sites).definition? name = some site := by
  induction literals generalizing sites with
  | nil => exact defined
  | cons literal rest ih => exact ih (definition?_addResultSite_of_some defined literal)

theorem definition?_foldl_addResultSite {literals : List Literal} {sites : Sites} {name : String} {site : Site}
    (found : (literals.foldl addResultSite sites).definition? name = some site) :
    sites.definition? name = some site ∨
      sites.definition? name = none ∧
        ∃ literal ∈ literals, ∃ aggregate, Equates name aggregate literal ∧ sites.aggregate? aggregate = some site := by
  induction literals generalizing sites with
  | nil => exact .inl found
  | cons literal rest ih =>
      rcases ih found with before | ⟨undefined, other, member, aggregate, equates, isSite⟩
      · refine (definition?_addResultSite before).imp_right fun ⟨undefined, aggregate, equates, isSite⟩ => ?_
        exact ⟨undefined, literal, List.mem_cons_self, aggregate, equates, isSite⟩
      · rw [Sites.aggregate?, aggregates_addResultSite] at isSite
        refine .inr ⟨?_, other, List.mem_cons_of_mem _ member, aggregate, equates, isSite⟩
        cases before : sites.definition? name with
        | none => rfl
        | some earlier =>
            rw [definition?_addResultSite_of_some before literal] at undefined
            cases undefined

/-- A variable of a clause is defined by an atom, or else by an aggregate that the body equates it with. -/
theorem definition?_clauseFrame {name : String} {site : Site}
    (found : (clauseFrame clause).sites.definition? name = some site) :
    (atomSites clause.positiveAtoms).definition? name = some site ∨
      (atomSites clause.positiveAtoms).definition? name = none ∧
        ∃ literal ∈ clause.body, ∃ aggregate, Equates name aggregate literal ∧
          (aggregateSitesOf clause).aggregate? aggregate = some site := by
  rw [← definition?_aggregateSitesOf]
  exact definition?_foldl_addResultSite found

theorem definition?_clauseFrame_of_atoms {name : String} {site : Site}
    (defined : (atomSites clause.positiveAtoms).definition? name = some site) :
    (clauseFrame clause).sites.definition? name = some site := by
  rw [← definition?_aggregateSitesOf] at defined
  exact definition?_foldl_addResultSite_of_some defined

/-- All sites of a clause are rows of its atoms and aggregates. -/
theorem tuple_lt_of_aggregate? {aggregate : Aggregate} {site : Site}
    (found : (clauseFrame clause).sites.aggregate? aggregate = some site) :
    site.tuple < clause.positiveAtoms.length + (clauseAggregates clause).length := by
  rw [Sites.aggregate?, aggregates_clauseFrame] at found
  obtain ⟨position, atPosition, rfl⟩ := aggregate?_aggregateSitesOf found
  have := (List.getElem?_eq_some_iff.1 atPosition).1
  simp only
  omega

theorem tuple_lt_of_definition? {name : String} {site : Site}
    (found : (clauseFrame clause).sites.definition? name = some site) :
    site.tuple < clause.positiveAtoms.length + (clauseAggregates clause).length := by
  rcases definition?_clauseFrame found with inAtoms | ⟨_, _, _, aggregate, _, isSite⟩
  · obtain ⟨atom, atTuple, _⟩ := argument_of_definition inAtoms
    have := (List.getElem?_eq_some_iff.1 atTuple).1
    omega
  · have read : (clauseFrame clause).sites.aggregate? aggregate = some site := by
      rwa [Sites.aggregate?, aggregates_clauseFrame]
    exact tuple_lt_of_aggregate? read

/-! ## Within an aggregate -/

/-- Sites with more variables, all of them columns of the row that is bound to `tuple`. -/
structure Extended (sites : Sites) (tuple : Nat) (inner : Sites) : Prop where
  aggregates : inner.aggregates = sites.aggregates
  definitions : ∀ name site, inner.definition? name = some site →
    sites.definition? name = some site ∨ site.tuple = tuple

theorem Extended.refl (sites : Sites) (tuple : Nat) : Extended sites tuple sites :=
  ⟨rfl, fun _ _ => .inl⟩

theorem Extended.of_addVariable {sites inner : Sites} {tuple column : Nat} {name : String}
    (extended : Extended (sites.addVariable name ⟨tuple, column⟩) tuple inner) : Extended sites tuple inner where
  aggregates := extended.aggregates
  definitions other site found := by
    rcases extended.definitions other site found with before | isTuple
    · rw [Sites.definition?_addVariable] at before
      cases earlier : sites.definition? other with
      | some known =>
          rw [earlier, Option.some_or] at before
          exact .inl before
      | none =>
          rw [earlier, Option.none_or] at before
          split at before
          · cases before
            exact .inr rfl
          · cases before
    · exact .inr isTuple

/-- The conditions that the arguments of an aggregate's atom ask for compare a column of its row with a value. -/
theorem aggregateSitesCode_spec {ordinal : String → Int64} {tuple : Nat} {args : List (Argument × Nat)}
    {sites inner : Sites} {comparisons : List Cond}
    (code : aggregateSitesCode ordinal tuple sites args = some (inner, comparisons)) :
    Extended sites tuple inner ∧ ∀ condition ∈ comparisons, ∃ between, Extended sites tuple between ∧
      ∃ entry ∈ args, entry.1 ≠ .unnamed ∧ ∃ value, valueCode ordinal between entry.1 = some value ∧
        condition = .compare .eq (.element tuple entry.2) value := by
  induction args generalizing sites comparisons with
  | nil =>
      cases code
      exact ⟨.refl _ tuple, by simp⟩
  | cons entry rest ih =>
      obtain ⟨arg, column⟩ := entry
      by_cases isUnnamed : arg = .unnamed
      · subst isUnnamed
        obtain ⟨extended, each⟩ := ih code
        refine ⟨extended, fun condition member => ?_⟩
        obtain ⟨between, isBetween, entry, inRest, more⟩ := each condition member
        exact ⟨between, isBetween, entry, List.mem_cons_of_mem _ inRest, more⟩
      · rw [aggregateSitesCode] at code
        · split at code
          · obtain ⟨extended, each⟩ := ih code
            refine ⟨extended.of_addVariable, fun condition member => ?_⟩
            obtain ⟨between, isBetween, entry, inRest, more⟩ := each condition member
            exact ⟨between, isBetween.of_addVariable, entry, List.mem_cons_of_mem _ inRest, more⟩
          · obtain ⟨value, isValue, code⟩ := Option.bind_eq_some_iff.1 code
            obtain ⟨⟨others, more⟩, isRest, same⟩ := Option.bind_eq_some_iff.1 code
            cases same
            obtain ⟨extended, each⟩ := ih isRest
            refine ⟨extended, fun condition member => ?_⟩
            rcases List.mem_cons.1 member with rfl | inRest
            · exact ⟨_, .refl _ tuple, _, List.mem_cons_self, isUnnamed, value, isValue, rfl⟩
            · obtain ⟨between, isBetween, entry, inRest, more⟩ := each condition inRest
              exact ⟨between, isBetween, entry, List.mem_cons_of_mem _ inRest, more⟩
        · exact isUnnamed

end DatalogRam.Lowering
