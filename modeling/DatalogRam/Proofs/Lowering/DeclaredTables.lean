import Mathlib.Data.List.Flatten
import DatalogRam.Proofs.Evaluation.Infos
import DatalogRam.Proofs.Lowering.Coverage
import DatalogRam.Proofs.Ram.Leaves

/-!
# Declared tables

Lowering declares the tables of all relations before it writes code, and under provenance one more for each rule. A
table whose name is taken is left out, so `declaredTables` are the tables of the program if their names are distinct.
Each of them ends with the bookkeeping columns of the strategy.
-/

namespace DatalogRam.Lowering

open Ram Analysis

/-! ## Tables by name -/

variable {tables more : List Table} {table : Table}

/-- The tables after the declaration of one more. -/
def addTable (tables : List Table) (table : Table) : List Table :=
  if (findTable? tables table.name).isSome then tables else tables ++ [table]

theorem findTable?_of_mem (distinct : (tables.map Table.name).Nodup) (member : table ∈ tables) :
    findTable? tables table.name = some table := by
  have isSome : (findTable? tables table.name).isSome := List.find?_isSome.2 ⟨table, member, beq_self_eq_true _⟩
  obtain ⟨found, isFound⟩ := Option.isSome_iff_exists.1 isSome
  have sameName : found.name = table.name := by simpa using List.find?_some isFound
  rw [isFound, List.inj_on_of_nodup_map distinct (List.mem_of_find?_eq_some isFound) member sameName]

theorem addTable_of_new (new : table.name ∉ tables.map Table.name) : addTable tables table = tables ++ [table] := by
  apply if_neg
  intro isSome
  obtain ⟨found, member, sameName⟩ := List.find?_isSome.1 isSome
  exact new (List.mem_map.2 ⟨found, member, by simpa using sameName⟩)

/-- Tables with distinct names are all kept. -/
theorem foldl_addTable (distinct : ((tables ++ more).map Table.name).Nodup) :
    more.foldl addTable tables = tables ++ more := by
  induction more generalizing tables with
  | nil => exact (List.append_nil tables).symm
  | cons table more ih =>
      have new : table.name ∉ tables.map Table.name := by
        rw [List.map_append, List.nodup_append] at distinct
        exact fun member => distinct.2.2 _ member _ List.mem_cons_self rfl
      rw [List.append_cons] at distinct ⊢
      rw [List.foldl_cons, addTable_of_new new, ih distinct]

/-! ## Code that declares tables -/

variable {α β γ : Type}

/-- Code that succeeds declares the given tables. -/
def Declares (code : Lower α) (tables : List Table) : Prop :=
  ∀ draft a last, outcome code draft = (.ok a, last) → last.tables = tables.foldl addTable draft.tables

namespace Declares

theorem of_keeps {code : Lower α} (keeps : Keeps code) : Declares code [] := by
  intro draft a last ran
  have kept := keeps.tables draft
  rw [ran] at kept
  exact kept

theorem declareTable (table : Table) : Declares (declareTable table) [table] := by
  intro draft a last ran
  have isLast : last.tables = (outcome (Lowering.declareTable table) draft).2.tables := by rw [ran]
  rw [isLast]
  change Draft.tables (if _ then _ else _) = addTable draft.tables table
  rw [addTable]
  split <;> rfl

theorem bind {code : Lower α} {next : α → Lower β} (first : Declares code tables)
    (second : ∀ a, Declares (next a) more) : Declares (code >>= next) (tables ++ more) := by
  intro draft b last ran
  obtain ⟨a, middle, ranFirst, ranNext⟩ := of_outcome_bind ran
  rw [second a middle b last ranNext, first draft a middle ranFirst, List.foldl_append]

/-- A step that declares nothing goes before. -/
theorem after {code : Lower α} {next : α → Lower β} (keeps : Keeps code) (second : ∀ a, Declares (next a) tables) :
    Declares (code >>= next) tables :=
  (of_keeps keeps).bind second

/-- A result that is there or not. -/
theorem ofResult {result : Except LoweringError α} {next : α → Lower β}
    (second : ∀ a, result = .ok a → Declares (next a) tables) : Declares (liftExcept result >>= next) tables := by
  cases result with
  | ok a => exact second a rfl
  | error failure =>
      intro draft b last ran
      cases ran

theorem mapM {code : γ → Lower α} {tables : γ → List Table} (elements : List γ)
    (each : ∀ element, Declares (code element) (tables element)) :
    Declares (elements.mapM code) (elements.flatMap tables) := by
  induction elements with
  | nil => exact of_keeps (Keeps.pure [])
  | cons element rest ih =>
      rw [List.mapM_cons, List.flatMap_cons]
      refine (each element).bind fun a => ?_
      have others : Declares _ (rest.flatMap tables ++ []) := ih.bind fun more => of_keeps (Keeps.pure (a :: more))
      rwa [List.append_nil] at others

theorem forM {code : γ → Lower Unit} {tables : γ → List Table} (elements : List γ)
    (each : ∀ element, Declares (code element) (tables element)) :
    Declares (elements.forM code) (elements.flatMap tables) := by
  induction elements with
  | nil => exact of_keeps (Keeps.pure ())
  | cons element rest ih =>
      rw [List.flatMap_cons]
      exact (each element).bind fun _ => ih

end Declares

/-! ## The tables of a plan -/

variable {plan : Plan} {relation : Relation} {name : String}

/-- The names under which a relation is kept. -/
def storedNames (plan : Plan) (name : Name) : List String :=
  if plan.isRecursiveRelation name then tablesOf name else [name.text]

/-- The tables of a relation. -/
def relationTables (plan : Plan) (relation : Relation) : List Table :=
  (storedNames plan relation.name).filterMap fun name => (tableFor plan relation name).toOption

/-- The table that describes a rule. -/
def ruleTable (plan : Plan) (entry : Clause × Nat) : Except LoweringError Table := do
  let number ← plan.clauseNumber entry.1 entry.2
  let description ← describeClause entry.1 number
  return infoTable plan (infoName entry.1.head.relation number) description.literals.length

/-- The tables that describe rules. -/
def ruleTables (plan : Plan) : List Table :=
  match plan.strategy with
  | .seminaive => []
  | .provenance => (describedRules plan.program).filterMap fun entry => (ruleTable plan entry).toOption

def declaredTables (plan : Plan) : List Table :=
  plan.program.relations.flatMap (relationTables plan) ++ ruleTables plan

theorem declares_relation (relation : Relation) :
    Declares (declareRelation plan relation) (relationTables plan relation) := by
  rw [declareRelation, relationTables, storedNames]
  refine .ofResult fun own (isOwn : tableFor plan relation relation.name.text = .ok own) => ?_
  split
  · simp only [tablesOf, List.filterMap_cons]
    rw [isOwn]
    refine (Declares.declareTable own).bind fun _ => .ofResult
      fun delta (isDelta : tableFor plan relation (deltaName relation.name) = .ok delta) => ?_
    rw [isDelta]
    refine (Declares.declareTable delta).bind fun _ => .ofResult
      fun fresh (isFresh : tableFor plan relation (freshName relation.name) = .ok fresh) => ?_
    rw [isFresh]
    exact .declareTable fresh
  · rw [List.filterMap_cons, isOwn]
    exact (Declares.declareTable own).bind fun _ => .of_keeps (.pure ())

theorem declares_evaluation :
    Declares (lowerEvaluation plan) (plan.program.relations.flatMap (relationTables plan)) := by
  have keeps := (Keeps.mapM plan.strata.zipIdx fun entry _ => (@writes_step (fun _ => 0) plan entry).toKeeps).bind
    fun strata => Keeps.inArena (sequence strata)
  have declares : Declares (lowerEvaluation plan) (plan.program.relations.flatMap (relationTables plan) ++ []) :=
    (Declares.forM _ declares_relation).bind fun _ => .of_keeps keeps
  rwa [List.append_nil] at declares

theorem ruleTable_eq_ok {entry : Clause × Nat} :
    ruleTable plan entry = .ok table ↔ ∃ number description, plan.clauseNumber entry.1 entry.2 = .ok number ∧
      describeClause entry.1 number = .ok description ∧
      table = infoTable plan (infoName entry.1.head.relation number) description.literals.length := by
  constructor
  · intro isTable
    obtain ⟨number, isNumber, rest⟩ := of_bind_eq_ok isTable
    obtain ⟨description, isDescription, same⟩ := of_bind_eq_ok rest
    cases same
    exact ⟨number, description, isNumber, isDescription, rfl⟩
  · rintro ⟨number, description, isNumber, isDescription, rfl⟩
    rw [ruleTable, isNumber]
    change (describeClause entry.1 number >>= _) = _
    rw [isDescription]
    rfl

theorem declares_info (entry : Clause × Nat) :
    Declares (lowerInfo plan entry.1 entry.2) (ruleTable plan entry).toOption.toList := by
  rw [lowerInfo]
  refine .ofResult fun number isNumber => .ofResult fun description isDescription => ?_
  rw [ruleTable_eq_ok.2 ⟨number, description, isNumber, isDescription, rfl⟩]
  let name := infoName entry.1.head.relation number
  have filled := (@writes_infoRow (fun _ => 0) plan name.text number description).toKeeps
  exact .after (@Writes.report (fun _ => 0) _ _ _).toKeeps fun _ =>
    (Declares.declareTable _).bind fun _ => .of_keeps filled

theorem declares_infos : Declares (lowerInfos plan)
    ((describedRules plan.program).filterMap fun entry => (ruleTable plan entry).toOption) := by
  have declares : Declares (lowerInfos plan)
      ((describedRules plan.program).flatMap (fun entry => (ruleTable plan entry).toOption.toList) ++ []) :=
    (Declares.mapM (describedRules plan.program) declares_info).bind fun queries =>
      .after (@Writes.report (fun _ => 0) _ _ _).toKeeps fun _ => .of_keeps (.inArena (sequence queries))
  rwa [List.append_nil, ← List.filterMap_eq_flatMap_toList] at declares

theorem declares_explanation (entry : Clause × Nat) : Declares (addExplanation plan entry.1 entry.2) [] := by
  have adds (name : String) (subroutine : Subroutine) : Declares (addSubroutine name subroutine) [] := by
    intro draft _ last ran
    cases ran
    rfl
  refine .after (.lift _) fun number => .after (@Writes.report (fun _ => 0) _ _ _).toKeeps fun _ => ?_
  refine .after (keeps_explanation plan entry.1 entry.2) fun explanation => ?_
  exact (adds _ explanation.derivation).bind fun _ => adds _ explanation.decision

/-- Lowering a program declares the tables of its plan. -/
theorem declares_unit : Declares (lowerUnit plan) (declaredTables plan) := by
  rw [lowerUnit, declaredTables, ruleTables]
  cases plan.strategy with
  | seminaive =>
      rw [List.append_nil]
      exact declares_evaluation
  | provenance =>
      have explains := Declares.forM (explainedRules plan.program) (@declares_explanation plan)
      rw [List.flatMap_eq_nil_iff.2 fun _ _ => rfl] at explains
      refine declares_evaluation.bind fun evaluation => ?_
      have declares := (@declares_infos plan).bind fun infos => explains.bind fun _ =>
        .of_keeps (.inArena (sequence [evaluation, infos]))
      rwa [List.append_nil, List.append_nil] at declares

/-! ## Names and columns -/

/-- The names of tables that are there are those of all tables that there may be, or fewer. -/
theorem sublist_filterMap {f : α → Option β} {key : β → γ} {name : α → γ} {elements : List α}
    (named : ∀ element ∈ elements, ∀ result, f element = some result → key result = name element) :
    ((elements.filterMap f).map key).Sublist (elements.map name) := by
  induction elements with
  | nil => exact .slnil
  | cons element rest ih =>
      have others := ih fun other member => named other (List.mem_cons_of_mem _ member)
      rw [List.filterMap_cons]
      split
      · exact others.cons _
      · next result isResult =>
          rw [List.map_cons, List.map_cons, named element List.mem_cons_self result isResult]
          exact others.cons_cons _

/-- A table has a name and a type for each of its columns, and the last ones keep the book of a strategy. -/
structure KeepsBook (strategy : Strategy) (table : Table) : Prop where
  names : table.columnNames.length = table.arity
  types : table.columnTypes.length = table.arity
  auxiliary : table.auxiliary = strategy.auxiliary
  bounded : table.auxiliary ≤ table.arity
  lastNames : ∃ logical, table.columnNames = logical ++ auxiliaryNames strategy
  lastTypes : ∃ logical, table.columnTypes = logical ++ auxiliaryTypes strategy

theorem length_auxiliaryNames (strategy : Strategy) : (auxiliaryNames strategy).length = strategy.auxiliary := by
  cases strategy <;> rfl

theorem length_auxiliaryTypes (strategy : Strategy) : (auxiliaryTypes strategy).length = strategy.auxiliary := by
  cases strategy <;> rfl

/-- Names and types of as many columns, with those that keep book behind them. -/
theorem KeepsBook.of_columns {strategy : Strategy} {names types : List String}
    (isNames : table.columnNames = names ++ auxiliaryNames strategy)
    (isTypes : table.columnTypes = types ++ auxiliaryTypes strategy) (aligned : types.length = names.length)
    (arity : table.arity = names.length + strategy.auxiliary) (count : table.auxiliary = strategy.auxiliary) :
    KeepsBook strategy table where
  names := by rw [isNames, List.length_append, length_auxiliaryNames, arity]
  types := by rw [isTypes, List.length_append, length_auxiliaryTypes, aligned, arity]
  auxiliary := count
  bounded := by
    rw [count, arity]
    exact Nat.le_add_left _ _
  lastNames := ⟨names, isNames⟩
  lastTypes := ⟨types, isTypes⟩

/-- Every attribute has a type, if all of them have. -/
theorem length_attributeTypes {attributes : List Attribute} {types : List String}
    (areTypes : attributeTypes plan attributes = .ok types) : types.length = attributes.length := by
  induction attributes generalizing types with
  | nil =>
      cases areTypes
      rfl
  | cons first rest ih =>
      rw [attributeTypes] at areTypes
      split at areTypes
      · cases areTypes
      · cases others : attributeTypes plan rest with
        | error failure =>
            rw [others] at areTypes
            cases areTypes
        | ok more =>
            rw [others] at areTypes
            cases areTypes
            rw [List.length_cons, List.length_cons, ih others]

/-- What is known of a table of a relation. -/
theorem of_tableFor (isTable : tableFor plan relation name = .ok table) :
    table.name = name ∧ table.arity = relation.arity + plan.auxiliary ∧ KeepsBook plan.strategy table := by
  rw [tableFor] at isTable
  cases areTypes : attributeTypes plan relation.attributes with
  | error failure =>
      rw [areTypes] at isTable
      cases isTable
  | ok types =>
      rw [areTypes] at isTable
      cases isTable
      have named : (relation.attributes.map Attribute.name).length = relation.arity := List.length_map _
      have typed : types.length = relation.arity := length_attributeTypes areTypes
      have arity : (relationTable plan.strategy relation name types).arity =
          (relation.attributes.map Attribute.name).length + plan.auxiliary := by
        rw [relationTable, List.length_append, length_auxiliaryNames, Plan.auxiliary]
      exact ⟨rfl, named ▸ arity, .of_columns rfl rfl (typed.trans named.symm) arity rfl⟩

/-- The table that describes a rule has columns for its number, its head and its literals. -/
theorem of_infoTable (name : Name) (count : Nat) :
    (infoTable plan name count).arity = count + 2 + plan.auxiliary ∧
      KeepsBook plan.strategy (infoTable plan name count) := by
  have named : (["clause_num", "head_vars"] ++
      (List.range count).map fun position => "rel_" ++ toString position).length = count + 2 := by
    rw [List.length_append, List.length_map, List.length_range, Nat.add_comm count]
    rfl
  have typed : (["i:number", "s:symbol"] ++ List.replicate count "s:symbol").length = count + 2 := by
    rw [List.length_append, List.length_replicate, Nat.add_comm count]
    rfl
  have arity : (infoTable plan name count).arity = (["clause_num", "head_vars"] ++
      (List.range count).map fun position => "rel_" ++ toString position).length + plan.auxiliary := by
    rw [infoTable, List.length_append, length_auxiliaryNames, Plan.auxiliary]
  exact ⟨named ▸ arity, .of_columns rfl rfl (typed.trans named.symm) arity rfl⟩

theorem names_relationTables (relation : Relation) :
    ((relationTables plan relation).map Table.name).Sublist (tablesOf relation.name) := by
  have named := @sublist_filterMap _ _ _ (fun name => (tableFor plan relation name).toOption) Table.name id
    (storedNames plan relation.name) fun name _ table isTable => (of_tableFor (eq_ok_of_toOption isTable)).1
  rw [List.map_id] at named
  apply named.trans
  rw [storedNames]
  split
  · exact .refl _
  · exact (List.nil_sublist _).cons_cons _

theorem names_ruleTables : ((ruleTables plan).map Table.name).Sublist (infoTables plan.program) := by
  rw [ruleTables]
  split
  · exact List.nil_sublist _
  · apply sublist_filterMap
    intro entry member table isTable
    obtain ⟨_, declared, isRule⟩ := mem_describedRules.1 member
    obtain ⟨number, _, isNumber, _, rfl⟩ := ruleTable_eq_ok.1 (eq_ok_of_toOption isTable)
    rw [clauseNumber_of_rule declared isRule] at isNumber
    cases isNumber
    rfl

theorem names_declaredTables :
    ((declaredTables plan).map Table.name).Sublist (tableNames plan.program ++ infoTables plan.program) := by
  rw [declaredTables, List.map_append, List.map_flatMap, tableNames, Program.relationNames, List.flatMap_map]
  exact (List.Sublist.flatMap_right _ fun relation _ => names_relationTables relation).append names_ruleTables

theorem keepsBook_of_declared (member : table ∈ declaredTables plan) : KeepsBook plan.strategy table := by
  rcases List.mem_append.1 member with ofRelation | ofRule
  · obtain ⟨relation, _, isTable⟩ := List.mem_flatMap.1 ofRelation
    obtain ⟨name, _, isTable⟩ := List.mem_filterMap.1 isTable
    exact (of_tableFor (eq_ok_of_toOption isTable)).2.2
  · rw [ruleTables] at ofRule
    split at ofRule
    · cases ofRule
    · obtain ⟨entry, _, isTable⟩ := List.mem_filterMap.1 ofRule
      obtain ⟨_, _, _, _, rfl⟩ := ruleTable_eq_ok.1 (eq_ok_of_toOption isTable)
      exact (of_infoTable _ _).2

/-- A relation whose columns have types has a table under each of its names. -/
theorem exists_relationTable (isRelation : relation ∈ plan.program.relations) (typed : hasColumns plan relation = true)
    (stored : name ∈ storedNames plan relation.name) :
    ∃ table ∈ declaredTables plan, table.name = name ∧ table.arity = relation.arity + plan.auxiliary := by
  rw [hasColumns, ← isSome_attributeTypes] at typed
  obtain ⟨types, areTypes⟩ := Option.isSome_iff_exists.1 typed
  obtain ⟨table, isTable⟩ : ∃ table, tableFor plan relation name = .ok table := by
    rw [tableFor, eq_ok_of_toOption areTypes]
    exact ⟨_, rfl⟩
  obtain ⟨isName, arity, _⟩ := of_tableFor isTable
  refine ⟨table, List.mem_append_left _ (List.mem_flatMap.2 ⟨relation, isRelation, ?_⟩), isName, arity⟩
  refine List.mem_filterMap.2 ⟨name, stored, ?_⟩
  rw [isTable]
  rfl

/-! ## Lowered programs -/

variable {program : Program} {strategy : Strategy} {debugInfo : Bool} {compiled : Ram.Program}

/-- Lowering fails if a column has a type of no kind. -/
theorem typed_of_evaluationCode {ordinal : String → Int64} {statement : Stmt}
    (code : evaluationCode ordinal plan = some statement) :
    ∀ relation ∈ plan.program.relations, hasColumns plan relation = true := by
  obtain ⟨_, isTyped, _⟩ := Option.bind_eq_some_iff.1 code
  unfold guard at isTyped
  split at isTyped
  · next typed => exact List.all_eq_true.1 typed
  · cases isTyped

theorem typed_of_lowered (lowered : (lowerProgram program strategy debugInfo).result = .ok compiled) :
    ∃ plan, Plan.of program strategy debugInfo = .ok plan ∧
      ∀ relation ∈ plan.program.relations, hasColumns plan relation = true := by
  obtain ⟨plan, _, planned, code, _⟩ := hasSteps_of_lowered lowered
  exact ⟨plan, planned, typed_of_evaluationCode code⟩

/-- If the names of tables are distinct, a program has the tables that its plan declares. -/
theorem tables_of_lowered (distinct : (tableNames program ++ infoTables program).Nodup)
    (lowered : (lowerProgram program strategy debugInfo).result = .ok compiled) :
    ∃ plan, Plan.of program strategy debugInfo = .ok plan ∧ compiled.tables = declaredTables plan ∧
      (compiled.tables.map Table.name).Nodup := by
  obtain ⟨plan, start, main, last, planned, unwritten, ran, rfl⟩ := of_lowered lowered
  obtain ⟨_, rfl, _⟩ := scheduled_of planned
  have once := distinct.sublist names_declaredTables
  have tables : last.tables = declaredTables plan := by
    have kept := @foldl_addTable [] (declaredTables plan) once
    rw [declares_unit start main last ran, unwritten.tables, kept, List.nil_append]
  have isNodup : (last.tables.map Table.name).Nodup := by rw [tables]; exact once
  exact ⟨plan, planned, tables, isNodup⟩

end DatalogRam.Lowering
