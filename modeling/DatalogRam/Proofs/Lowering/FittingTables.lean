import DatalogRam.Proofs.Lowering.ProgramUses

/-!
# Lowered programs use their tables as declared

Tables are declared in one place and used in many: by scans, insertions and guards, by the tests of rounds and by the
subroutines that explain rules. If the atoms of a program have as many arguments as their relations have attributes, all
of these uses fit the declared tables, bookkeeping columns included.
-/

namespace DatalogRam.Lowering

open Ram Analysis

/-- A use within scans names tables that there are, has a value for each of their columns where it has any, and reads
only columns that the scanned tables have. -/
structure FitsTables (tables : List Table) (scans : Scans) (use : Use) : Prop where
  table : ∀ relation, use.relation? = some relation → ∃ table, findTable? tables relation = some table ∧
    ∀ values, use.row? = some values → values.length = table.arity
  columns : ∀ tuple relation, (tuple, relation) ∈ scans → ∃ table, findTable? tables relation = some table ∧
    ∀ expr ∈ use.exprs, ∀ column, .element tuple column ∈ expr.leaves → column < table.arity

/-- The tables of a program have distinct names, and its atoms have the arity with which their relations are declared. -/
structure WellFormed (program : Program) : Prop where
  distinct : (tableNames program ++ infoTables program).Nodup
  arities : ∀ clause ∈ program.clauses, ∀ atom ∈ clause.named, ∀ relation,
    program.relation? atom.relation = some relation → atom.arity = relation.arity

variable {plan : Plan} {stratum : Stratum} {clause : Clause} {version : Version} {program : Program}

theorem WellFormed.once (wellFormed : WellFormed program) : program.relationNames.Nodup :=
  relationNames_nodup (List.nodup_append.1 wellFormed.distinct).1

/-! ## Tables for rounds -/

theorem isRecursiveRelation_of_mem (once : plan.program.relationNames.Nodup) (scheduled : plan.Scheduled)
    (isStratum : stratum ∈ plan.strata) (loops : stratum.recursive = true) {name : Name}
    (member : name ∈ stratum.relations) : plan.isRecursiveRelation name = true := by
  obtain ⟨position, atPosition⟩ := List.getElem?_of_mem isStratum
  have isPosition : plan.stratumOf? name = some position := by
    rw [Plan.stratumOf?, scheduled.strata, stratumOf?_eq_some_iff once]
    exact ⟨stratum, scheduled.strata ▸ atPosition, member⟩
  rw [Plan.isRecursiveRelation, isPosition]
  simp [atPosition, loops]

theorem full_stored (name : Name) : name.text ∈ storedNames plan name := by
  rw [storedNames]
  split <;> exact List.mem_cons_self

theorem Part.stored (part : Part) {name : Name} (recursive : plan.isRecursiveRelation name = true) :
    part.table name ∈ storedNames plan name := by
  rw [storedNames, if_pos recursive]
  exact part.table_mem name

/-- The tables that the version of a query may use are kept. -/
def Version.Stored (plan : Plan) (clause : Clause) (version : Version) : Prop :=
  ∀ part atom, version.Uses clause part atom → part.table atom.relation ∈ storedNames plan atom.relation

theorem stored_complete : Version.Stored plan clause .complete := by
  intro part atom uses
  cases uses with
  | full isNamed => exact full_stored atom.relation
  | delta atPosition reads => cases reads
  | fresh incremental => cases incremental

/-- A version that reads the previous round is run in a loop, so its relations have tables for rounds. -/
theorem Query.RunBy.stored {query : Query} (once : plan.program.relationNames.Nodup) (scheduled : plan.Scheduled)
    (isStratum : stratum ∈ plan.strata) (isRun : query.RunBy plan stratum) :
    query.version.Stored plan query.clause := by
  rcases isRun.version with isComplete | ⟨loops, position, isPosition, isVersion⟩
  · rw [isComplete]
    exact stored_complete
  · intro part atom uses
    have recursive {name : Name} := @isRecursiveRelation_of_mem plan stratum once scheduled isStratum loops name
    rw [isVersion] at uses
    cases uses with
    | full isNamed => exact full_stored atom.relation
    | fresh incremental => exact Part.fresh.stored (recursive isRun.head)
    | delta atPosition reads =>
        obtain ⟨other, atDelta, member⟩ := mem_positionsWithin.1 isPosition
        obtain rfl := Option.some.inj (beq_iff_eq.1 reads)
        obtain rfl := Option.some.inj (atPosition.symm.trans atDelta)
        exact Part.delta.stored (recursive member)

/-! ## Fitting uses -/

theorem Version.Uses.mem_named {part : Part} {atom : Atom} (uses : version.Uses clause part atom) :
    atom ∈ clause.named := by
  cases uses with
  | full isNamed => exact isNamed
  | delta atPosition reads =>
      have isLiteral := clause.body_subset_evaluated (Clause.mem_positiveAtoms.1 (List.mem_of_getElem? atPosition))
      exact Clause.mem_named isLiteral rfl
  | fresh incremental => exact List.mem_cons_self

/-- What is known of the tables with which a well-formed program was lowered. -/
structure Provides (plan : Plan) (tables : List Table) : Prop where
  wellFormed : WellFormed plan.program
  typed : ∀ relation ∈ plan.program.relations, hasColumns plan relation = true
  distinct : (tables.map Table.name).Nodup
  declared : tables = declaredTables plan

variable {tables : List Table} {scans : Scans} {use : Use} {answers : Bool}

/-- A declared relation has a table under each name under which it is kept. -/
theorem Provides.stored (provides : Provides plan tables) {name : Name} {declaration : Relation}
    (found : plan.program.relation? name = some declaration) {relation : String}
    (isStored : relation ∈ storedNames plan name) :
    ∃ table, findTable? tables relation = some table ∧ table.arity = declaration.arity + plan.auxiliary := by
  obtain ⟨isRelation, rfl⟩ := Program.relation?_eq_some found
  obtain ⟨table, member, rfl, arity⟩ := exists_relationTable isRelation (provides.typed _ isRelation) isStored
  exact ⟨table, findTable?_of_mem provides.distinct (provides.declared ▸ member), arity⟩

/-- A table that a clause may use for an atom has a column for each argument, and those for the bookkeeping. -/
theorem Provides.table (provides : Provides plan tables) (isClause : clause ∈ plan.program.clauses)
    (stored : version.Stored plan clause) {relation : String} {atom : Atom}
    (isTable : IsTableOf plan clause version relation atom) :
    ∃ table, findTable? tables relation = some table ∧ table.arity = atom.arity + plan.auxiliary := by
  obtain ⟨declares, part, uses, rfl⟩ := isTable
  obtain ⟨declaration, found⟩ := Option.isSome_iff_exists.1 declares
  rw [provides.wellFormed.arities clause isClause atom uses.mem_named declaration found]
  exact provides.stored found (stored part atom uses)

theorem Provides.fits (provides : Provides plan tables) (isClause : clause ∈ plan.program.clauses)
    (stored : version.Stored plan clause) (within : ScansAtoms plan clause version scans)
    (uses : ClauseUse plan clause version answers clause.positiveAtoms use) : FitsTables tables scans use where
  table relation named := by
    obtain ⟨atom, isTable, count⟩ := uses.table relation named
    obtain ⟨table, found, arity⟩ := provides.table isClause stored isTable
    exact ⟨table, found, fun values isRow => (count values isRow).trans arity.symm⟩
  columns tuple relation member := by
    obtain ⟨atom, atTuple, isTable⟩ := within _ member
    obtain ⟨table, found, arity⟩ := provides.table isClause stored isTable
    refine ⟨table, found, fun expr isExpr column isLeaf => ?_⟩
    rw [arity]
    exact uses.reads expr isExpr tuple column isLeaf atom atTuple

theorem Provides.fits_main (provides : Provides plan tables) (scheduled : plan.Scheduled)
    (isUse : MainUse plan scans use) : FitsTables tables scans use ∧ use.isAnswer = false := by
  have once := provides.wellFormed.once
  cases isUse with
  | query isStratum isRun within uses =>
      have fits := provides.fits (List.mem_of_getElem? isRun.atId) (isRun.stored once scheduled isStratum) within uses
      exact ⟨fits, Bool.eq_false_iff.2 fun isAnswer => nomatch uses.answers isAnswer⟩
  | @round _ name isStratum loops member =>
      have isStored := Part.fresh.stored (isRecursiveRelation_of_mem once scheduled isStratum loops member)
      obtain ⟨position, atPosition⟩ := List.getElem?_of_mem isStratum
      rw [scheduled.strata] at atPosition
      obtain ⟨declaration, found⟩ :=
        Program.exists_relation ((InStratum.of_getElem? atPosition).2 member).declared
      obtain ⟨table, isTable, _⟩ := provides.stored found isStored
      refine ⟨⟨fun relation named => ?_, fun _ _ isScan => absurd isScan List.not_mem_nil⟩, rfl⟩
      cases named
      exact ⟨table, isTable, fun _ isRow => nomatch isRow⟩
  | @rule table row isTable count =>
      have member : table ∈ tables := provides.declared ▸ List.mem_append_right _ isTable
      refine ⟨⟨fun relation named => ?_, fun _ _ isScan => absurd isScan List.not_mem_nil⟩, rfl⟩
      cases named
      refine ⟨table, findTable?_of_mem provides.distinct member, fun values isRow => ?_⟩
      cases isRow
      rw [List.length_map, count]

/-! ## Programs -/

variable {strategy : Strategy} {debugInfo : Bool} {compiled : Ram.Program}

/-- A program whose atoms have their declared arity uses its tables as they are declared, bookkeeping included, and only
its subroutines answer. -/
theorem lowered_fits (wellFormed : WellFormed program)
    (lowered : (lowerProgram program strategy debugInfo).result = .ok compiled) :
    (compiled.main.tree.Uses fun scans use => FitsTables compiled.tables scans use ∧ use.isAnswer = false) ∧
      (∀ name subroutine, compiled.subroutine? name = some subroutine →
        subroutine.body.tree.Uses fun scans use => FitsTables compiled.tables scans use) ∧
      ∀ table ∈ compiled.tables, KeepsBook strategy table := by
  obtain ⟨plan, planned, declared, distinct⟩ := tables_of_lowered wellFormed.distinct lowered
  obtain ⟨scheduled, rfl, rfl⟩ := scheduled_of planned
  have isPlan {other : Plan} (alsoPlanned : Plan.of plan.program plan.strategy debugInfo = .ok other) : plan = other :=
    Except.ok.inj (planned.symm.trans alsoPlanned)
  obtain ⟨other, typedPlan, typed⟩ := typed_of_lowered lowered
  obtain rfl := isPlan typedPlan
  have provides : Provides plan compiled.tables := ⟨wellFormed, typed, distinct, declared⟩
  refine ⟨?_, fun name subroutine found => ?_, fun table member => keepsBook_of_declared (declared ▸ member)⟩
  · obtain ⟨other, usesPlan, uses⟩ := uses_of_main lowered
    obtain rfl := isPlan usesPlan
    exact uses.mono fun scans use isUse => provides.fits_main scheduled isUse
  · obtain ⟨other, usesPlan, clause, isClause, uses⟩ := uses_of_subroutine lowered found
    obtain rfl := isPlan usesPlan
    exact uses.mono fun scans use isUse => provides.fits isClause stored_complete isUse.1 isUse.2

/-- Two relations, two tables for rounds and two that describe rules. -/
theorem lowered_fits_reachability :
    WellFormed reachability ∧
      ∃ compiled, (lowerProgram reachability .provenance false).result = .ok compiled ∧
        compiled.tables.map (fun table => (table.name, table.arity, table.auxiliary)) =
          [("edge", 4, 2), ("path", 4, 2), ("@delta_path", 4, 2), ("@new_path", 4, 2), ("path.@info.1", 5, 2),
            ("path.@info.2", 6, 2)] ∧
        (compiled.main.tree.Uses fun scans use => FitsTables compiled.tables scans use ∧ use.isAnswer = false) ∧
        (∀ name subroutine, compiled.subroutine? name = some subroutine →
          subroutine.body.tree.Uses fun scans use => FitsTables compiled.tables scans use) ∧
        ∀ table ∈ compiled.tables, KeepsBook .provenance table := by
  have wellFormed : WellFormed reachability := {
    distinct := by decide +kernel
    arities := by
      have each : ∀ clause ∈ reachability.clauses, ∀ atom ∈ clause.named,
          (reachability.relation? atom.relation).all (fun relation => atom.arity = relation.arity) = true := by
        decide +kernel
      intro clause isClause atom isAtom relation found
      simpa [found] using each clause isClause atom isAtom }
  have names : ((lowerProgram reachability .provenance false).result.toOption.map fun compiled =>
      compiled.tables.map fun table => (table.name, table.arity, table.auxiliary)) =
        some [("edge", 4, 2), ("path", 4, 2), ("@delta_path", 4, 2), ("@new_path", 4, 2), ("path.@info.1", 5, 2),
          ("path.@info.2", 6, 2)] := by
    decide +kernel
  obtain ⟨compiled, lowered, isTables⟩ := exists_shown names
  exact ⟨wellFormed, compiled, lowered, isTables, lowered_fits wellFormed lowered⟩

end DatalogRam.Lowering
