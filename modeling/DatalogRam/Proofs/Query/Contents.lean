import DatalogRam.Proofs.Query.Effects

/-!
# What a query adds

The query of a simple clause adds to one table only. Every row that it adds is derived from rows that were there
before, and the head of every such derivation is in the table afterwards, unless it was already known where the
guard looks for it. On logical contents both strategies do the same.
-/

namespace DatalogRam.Lowering

open Machine Ram

variable {ordinal : String → Int64} {plan : Plan} {clause : Clause} {id : Nat} {version : Version}
variable {start store : Store} {rows : List Row}

/-- The head that a choice of rows derives. -/
abbrev headOf (ordinal : String → Int64) (clause : Clause) (rows : List Row) : Row :=
  clause.headRow ordinal (valuationOf clause.positiveAtoms rows)

/-- A choice of rows derives the head of a clause: it is selected, and the other literals pass. -/
structure Fires (ordinal : String → Int64) (plan : Plan) (clause : Clause) (version : Version) (store : Store)
    (rows : List Row) : Prop where
  length : rows.length = clause.positiveAtoms.length
  selected : Selected ordinal version clause.positiveAtoms store rows
  passes : ∀ literal ∈ clause.body,
    Passes ordinal plan.auxiliary (valuationOf clause.positiveAtoms rows) store literal

/-- The query reads neither the table into which it inserts nor, in an incremental version, guards with it. -/
structure Separate (version : Version) (clause : Clause) : Prop where
  atoms : Apart version clause
  negated : ∀ atom ∈ clause.negatedAtoms, atom.relation.text ≠ version.target clause.head.relation
  head : version.isIncremental = true → clause.head.relation.text ≠ version.target clause.head.relation

/-- The rows that a query may add. -/
def Added (ordinal : String → Int64) (plan : Plan) (clause : Clause) (id : Nat) (version : Version)
    (store : Store) (row : Row) : Prop :=
  ∃ rows, Fires ordinal plan clause version store rows ∧ row = derivedRow ordinal plan clause id rows ∧
    (version.isIncremental = true →
      headOf ordinal clause rows ∉ content store clause.head.relation.text clause.head.arity plan.auxiliary)

/-- Rows are added to one table and to no other. -/
structure Extends (target : String) (start store : Store) : Prop where
  others : ∀ table, table ≠ target → store.rows table = start.rows table
  kept : ∀ row ∈ start.rows target, row ∈ store.rows target

/-- What holds of the store while a query runs. -/
structure Grown (ordinal : String → Int64) (plan : Plan) (clause : Clause) (id : Nat) (version : Version)
    (start store : Store) : Prop extends Extends (version.target clause.head.relation) start store where
  added : ∀ row ∈ store.rows (version.target clause.head.relation),
    row ∈ start.rows (version.target clause.head.relation) ∨ Added ordinal plan clause id version start row

theorem content_congr {first second : Store} {table : String} {arity auxiliary : Nat}
    (same : second.rows table = first.rows table) :
    content second table arity auxiliary = content first table arity auxiliary := by
  rw [content, content, same]

theorem content_mono {first second : Store} {table : String} {arity auxiliary : Nat}
    (kept : ∀ row ∈ first.rows table, row ∈ second.rows table) :
    content first table arity auxiliary ⊆ content second table arity auxiliary := by
  rintro row ⟨full, member, length, taken⟩
  exact ⟨full, kept full member, length, taken⟩

theorem Passes.congr {auxiliary : Nat} {valuation : Valuation} {literal : Literal} {other : Store}
    (same : ∀ relation args, literal = .negative relation args →
      other.rows relation.text = store.rows relation.text) :
    Passes ordinal auxiliary valuation other literal ↔ Passes ordinal auxiliary valuation store literal := by
  cases literal with
  | negative relation args =>
      rw [Passes, Passes, content_congr (same relation args rfl)]
  | _ => rfl

theorem length_headRow (valuation : Valuation) :
    (clause.headRow ordinal valuation).length = clause.head.arity := by
  rw [Clause.headRow, Argument.values_eq_map, List.length_map]
  rfl

theorem length_bookkept : (bookkept plan clause id rows).length = plan.auxiliary := by
  rw [bookkept, Plan.auxiliary]
  cases plan.strategy <;> rfl

theorem length_derivedRow :
    (derivedRow ordinal plan clause id rows).length = clause.head.arity + plan.auxiliary := by
  rw [derivedRow, List.length_append, length_headRow, length_bookkept]

theorem take_derivedRow :
    (derivedRow ordinal plan clause id rows).take clause.head.arity = headOf ordinal clause rows := by
  rw [derivedRow, List.take_append_of_le_length (by rw [length_headRow]), List.take_of_length_le]
  rw [length_headRow]

theorem Extends.refl (target : String) (start : Store) : Extends target start start where
  others := fun _ _ => rfl
  kept := fun _ member => member

theorem Extends.trans {target : String} {last : Store} (first : Extends target start store)
    (second : Extends target store last) : Extends target start last where
  others := fun table other => (second.others table other).trans (first.others table other)
  kept := fun row member => second.kept row (first.kept row member)

theorem Extends.derive (store : Store) (rows : List Row) :
    Extends (version.target clause.head.relation) store
      (derive ordinal plan clause id version rows store) := by
  rw [Lowering.derive, insertHead]
  split
  · split
    · refine ⟨fun table other => ?_, fun row member => ?_⟩
      · rw [Store.rows_insert, if_neg other]
      · rw [Store.rows_insert, if_pos rfl, Rows.mem_insert]
        exact .inr member
    · exact Extends.refl _ _
  · exact Extends.refl _ _

theorem Extends.foldl (visited : List (List Row)) (store : Store) :
    Extends (version.target clause.head.relation) store
      (visited.foldl (fun store rows => Lowering.derive ordinal plan clause id version rows store) store) := by
  induction visited generalizing store with
  | nil => exact Extends.refl _ _
  | cons choice rest ih => exact (Extends.derive store choice).trans (ih _)

theorem Grown.refl (start : Store) : Grown ordinal plan clause id version start start where
  toExtends := Extends.refl _ start
  added := fun _ member => .inl member

/-- A derivation passes during the query if it did so at the start. -/
theorem Grown.passes_iff (separate : Separate version clause)
    (grown : Grown ordinal plan clause id version start store) :
    (∀ literal ∈ clause.body,
        Passes ordinal plan.auxiliary (valuationOf clause.positiveAtoms rows) store literal) ↔
      ∀ literal ∈ clause.body,
        Passes ordinal plan.auxiliary (valuationOf clause.positiveAtoms rows) start literal := by
  refine forall_congr' fun literal => forall_congr' fun member => Passes.congr ?_
  rintro relation args rfl
  exact grown.others _ (separate.negated ⟨relation, args⟩ (Clause.mem_negatedAtoms.2 member))

theorem Grown.derive (separate : Separate version clause)
    (grown : Grown ordinal plan clause id version start store)
    (length : rows.length = clause.positiveAtoms.length)
    (selected : Selected ordinal version clause.positiveAtoms start rows) :
    Grown ordinal plan clause id version start (derive ordinal plan clause id version rows store) := by
  refine ⟨grown.toExtends.trans (Extends.derive store rows), fun row member => ?_⟩
  rw [Lowering.derive, insertHead] at member
  split at member
  · next passes =>
      split at member
      · next unguarded =>
          rw [Store.rows_insert, if_pos rfl, Rows.mem_insert] at member
          rcases member with rfl | member
          · refine .inr ⟨rows, ⟨length, selected, (grown.passes_iff separate).1 passes⟩, rfl, ?_⟩
            intro incremental
            rw [Unguarded, if_pos (.inr incremental)] at unguarded
            rwa [content_congr (grown.others _ (separate.head incremental))] at unguarded
          · exact grown.added row member
      · exact grown.added row member
  · exact grown.added row member

/-- Running the derivations of selected choices one after another. -/
theorem Grown.foldl (separate : Separate version clause) {visited : List (List Row)}
    (selected : ∀ choice ∈ visited, choice.length = clause.positiveAtoms.length ∧
      Selected ordinal version clause.positiveAtoms start choice)
    (grown : Grown ordinal plan clause id version start store) :
    Grown ordinal plan clause id version start
      (visited.foldl (fun store rows => Lowering.derive ordinal plan clause id version rows store) store) := by
  induction visited generalizing store with
  | nil => exact grown
  | cons choice rest ih =>
      obtain ⟨length, isSelected⟩ := selected choice List.mem_cons_self
      exact ih (fun other member => selected other (List.mem_cons_of_mem _ member))
        (grown.derive separate length isSelected)

/-- Where the guard looks for a head, or where it is inserted. -/
def Known (ordinal : String → Int64) (plan : Plan) (clause : Clause) (version : Version) (rows : List Row)
    (store : Store) : Prop :=
  headOf ordinal clause rows ∈
      content store (version.target clause.head.relation) clause.head.arity plan.auxiliary ∨
    version.isIncremental = true ∧
      headOf ordinal clause rows ∈ content store clause.head.relation.text clause.head.arity plan.auxiliary

/-- The rows of the head's relation have the right length, so that an empty row is the only one without
columns. -/
def HeadShaped (auxiliary : Nat) (clause : Clause) (store : Store) : Prop :=
  ∀ row ∈ store.rows clause.head.relation.text, row.length = clause.head.arity + auxiliary

/-- After a derivation its head is known. -/
theorem known_derive (shaped : HeadShaped plan.auxiliary clause store)
    (passes : ∀ literal ∈ clause.body,
      Passes ordinal plan.auxiliary (valuationOf clause.positiveAtoms rows) store literal) :
    Known ordinal plan clause version rows (derive ordinal plan clause id version rows store) := by
  rw [derive, if_pos passes, insertHead]
  split
  · refine .inl ⟨derivedRow ordinal plan clause id rows, ?_, length_derivedRow, take_derivedRow⟩
    rw [Store.rows_insert, if_pos rfl, Rows.mem_insert]
    exact .inl rfl
  · next guarded =>
      rw [Unguarded] at guarded
      split at guarded
      · next looked =>
          rw [not_not] at guarded
          cases incremental : version.isIncremental with
          | true => exact .inr ⟨incremental, guarded⟩
          | false =>
              refine .inl ?_
              rw [Version.target, incremental]
              exact guarded
      · next unlooked =>
          split at guarded
          · next empty =>
              simp only [not_forall, not_not] at guarded
              obtain ⟨row, member⟩ := guarded
              have plain : version.isIncremental = false := by
                cases incremental : version.isIncremental with
                | true => exact absurd (.inr incremental) unlooked
                | false => rfl
              refine .inl ⟨row, ?_, shaped row member, ?_⟩
              · rw [Version.target, plain]
                exact member
              · have noHead : headOf ordinal clause rows = [] := by
                  rw [← List.length_eq_zero_iff, length_headRow, empty]
                rw [noHead, empty, List.take_zero]
          · exact absurd trivial guarded

theorem Known.mono {later : Store} (known : Known ordinal plan clause version rows store)
    (separate : Separate version clause)
    (grows : Extends (version.target clause.head.relation) store later) :
    Known ordinal plan clause version rows later := by
  rcases known with inTarget | ⟨incremental, inRelation⟩
  · exact .inl (content_mono grows.kept inTarget)
  · refine .inr ⟨incremental, ?_⟩
    rwa [content_congr (grows.others _ (separate.head incremental))]

theorem Grown.headShaped (grown : Grown ordinal plan clause id version start store)
    (shaped : HeadShaped plan.auxiliary clause start) : HeadShaped plan.auxiliary clause store := by
  intro row member
  by_cases same : clause.head.relation.text = version.target clause.head.relation
  · rw [same] at member
    rcases grown.added row member with before | ⟨rows, _, rfl, _⟩
    · rw [← same] at before
      exact shaped row before
    · exact length_derivedRow
  · rw [grown.others _ same] at member
    exact shaped row member

/-- After a query the head of every derivation is known. -/
theorem known_foldl (separate : Separate version clause) {visited : List (List Row)}
    (selected : ∀ choice ∈ visited, choice.length = clause.positiveAtoms.length ∧
      Selected ordinal version clause.positiveAtoms start choice)
    (shaped : HeadShaped plan.auxiliary clause start)
    (grown : Grown ordinal plan clause id version start store) (member : rows ∈ visited)
    (passes : ∀ literal ∈ clause.body,
      Passes ordinal plan.auxiliary (valuationOf clause.positiveAtoms rows) start literal) :
    Known ordinal plan clause version rows
      (visited.foldl (fun store rows => Lowering.derive ordinal plan clause id version rows store) store) := by
  induction visited generalizing store with
  | nil => cases member
  | cons choice rest ih =>
      rcases List.mem_cons.1 member with rfl | member
      · exact (known_derive (grown.headShaped shaped) ((grown.passes_iff separate).2 passes)).mono separate
          (Extends.foldl rest _)
      · obtain ⟨length, isSelected⟩ := selected choice List.mem_cons_self
        exact ih (fun other isOther => selected other (List.mem_cons_of_mem _ isOther))
          (grown.derive separate length isSelected) member

/-- The effect of a query on a store. -/
structure Queried (ordinal : String → Int64) (plan : Plan) (clause : Clause) (id : Nat) (version : Version)
    (start final : Store) : Prop extends Grown ordinal plan clause id version start final where
  known : ∀ rows, Fires ordinal plan clause version start rows →
    Known ordinal plan clause version rows final

/-- The query of a simple clause runs without a fault and has the effect of a query. -/
theorem returns_queried {statement : Stmt} {args : Row} (simple : clause.Simple)
    (isFact : clause.isFact = true → version = .complete) (separate : Separate version clause)
    (shaped : Shaped version plan.auxiliary clause.positiveAtoms start)
    (headShaped : HeadShaped plan.auxiliary clause start)
    (code : clauseCode ordinal plan clause id version = some statement) :
    ∃ final, Queried ordinal plan clause id version start final ∧
      ∀ rounds state, state.store = start → ∃ bindings,
        Returns (runStmt rounds args statement) state .proceed
          { state with store := final, bindings := bindings } := by
  obtain ⟨visited, isVisited, runs⟩ := returns_clause simple isFact separate.atoms shaped code
  refine ⟨_, ⟨(Grown.refl start).foldl separate fun choice member => (isVisited choice).1 member, ?_⟩, runs⟩
  intro rows fires
  exact known_foldl separate (fun choice member => (isVisited choice).1 member) headShaped (Grown.refl start)
    ((isVisited rows).2 ⟨fires.length, fires.selected⟩) fires.passes

end DatalogRam.Lowering
