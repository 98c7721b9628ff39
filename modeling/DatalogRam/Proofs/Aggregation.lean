import DatalogRam.Proofs.Consequences
import DatalogRam.Proofs.Query.Concluding

/-!
# A query folds aggregates over the rows that match

The query of a clause with aggregates inserts exactly the heads of the clause's instances, where every aggregate has the
value of its function, folded over the targets of the rows that match its atom and satisfy the rest of its body.
Nothing else is changed, and there is no instance where an aggregate has no value.
-/

namespace DatalogRam

open Machine Ram

namespace Lowering

variable {plan : Plan} {clause : Clause} {id : Nat}

/-- The tables that the clause reads are not the one into which its query inserts. -/
theorem readsElsewhere_of_distinct (distinct : (tableNames plan.program).Nodup)
    (folding : clause.Folding plan.program) : ReadsElsewhere clause := by
  intro literal member atom isAtom same
  have isRead := (folding.declared atom (Clause.mem_named member isAtom)).1
  have isHead := (folding.declared clause.head List.mem_cons_self).1
  have sameTable : Part.full.table atom.relation = Part.full.table clause.head.relation := same
  exact folding.others literal member atom isAtom (table_injective distinct isRead isHead sameTable).2

/-- Rows of declared relations have as many columns as the atoms that a clause names. -/
theorem HasShape.length_eq {store : Store} (shaped : HasShape plan.program store)
    (folding : clause.Folding plan.program) {atom : Atom} (named : atom ∈ clause.named) {row : Row}
    (member : row ∈ store.rows atom.relation.text) : row.length = atom.arity := by
  obtain ⟨isDeclared, arity⟩ := folding.declared atom named
  rw [arity]
  exact shaped .full atom.relation isDeclared row member

/-- If a clause with aggregates is lowered, its query over complete relations inserts the heads of its instances, and
nothing else is changed. -/
theorem query_inserts_instances (distinct : (tableNames plan.program).Nodup) (strategy : plan.strategy = .seminaive)
    (folding : clause.Folding plan.program) {draft last : Draft} {body : Placed Stmt}
    (lowered : outcome (lowerComplete plan clause id .insertion) draft = (.ok body, last)) {state : State}
    (known : state.symbols.Extends last.symbols) (shaped : HasShape plan.program state.store) :
    Adds body.tree state clause.head.relation.text
      (clause.instances state.symbols.ordinal (storedRows state.store)) := by
  have gives := (@Translation.writes state.symbols.ordinal plan .complete clause id).gives draft
  rw [Translation.lower, lowered] at gives
  have code := (gives ((Symbols.agrees_ordinal state.symbols).of_extends known)).symm
  have lowerable : Clause.Lowerable plan.program clause := isSome_clauseCode_iff.1 (Option.isSome_of_eq_some code)
  have elsewhere := readsElsewhere_of_distinct distinct folding
  have shapedAtoms : Shaped .complete 0 clause.positiveAtoms state.store := by
    intro position atom atPosition row member
    have inBody := Clause.mem_positiveAtoms.1 (List.mem_of_getElem? atPosition)
    exact shaped.length_eq folding (Clause.mem_named (Clause.body_subset_evaluated clause inBody) rfl) member
  have fitting : ∀ aggregate ∈ clauseAggregates clause, Fitting aggregate state.store := by
    intro aggregate isAggregate relation terms inBody row member
    have named : (⟨relation, terms⟩ : Atom) ∈ clause.named :=
      Clause.mem_named (Clause.mem_evaluated isAggregate inBody) rfl
    exact shaped.length_eq folding named member
  have headShaped : HeadShaped 0 clause state.store := fun row member =>
    shaped.length_eq folding List.mem_cons_self member
  intro args
  obtain ⟨final, concluding, means, runs⟩ :=
    returns_concluded folding strategy elsewhere shapedAtoms fitting lowerable headShaped code
  exact ⟨final, means, concluding.others, fun rounds => runs rounds state rfl⟩

/-! ## Sums over sales -/

def sale : Atom :=
  ⟨⟨["sale"]⟩, [.var "shop", .var "item", .var "price"]⟩

/-- The sum of the prices of what a shop sold, without returned items. -/
def sumOfPrices : Aggregate where
  function := .sum
  target := some (.var "price")
  body := [.positive sale.relation sale.args, .negative ⟨["returned"]⟩ [.var "item"]]

/-- What a shop takes. The aggregate reads the shop outside, and has the item and the price for itself. -/
def taking : Clause where
  head := ⟨⟨["takes"]⟩, [.var "shop", .var "sum"]⟩
  body := [.positive ⟨["shop"]⟩ [.var "shop"], .comparison .eq (.var "sum") sumOfPrices.toArgument]

def takings : Program where
  types := []
  relations :=
    [⟨⟨["shop"]⟩, [⟨"a", ⟨["number"]⟩⟩], .standard, [.input]⟩,
      ⟨⟨["sale"]⟩, [⟨"a", ⟨["number"]⟩⟩, ⟨"b", ⟨["number"]⟩⟩, ⟨"c", ⟨["number"]⟩⟩], .standard, [.input]⟩,
      ⟨⟨["returned"]⟩, [⟨"a", ⟨["number"]⟩⟩], .standard, [.input]⟩,
      ⟨⟨["takes"]⟩, [⟨"a", ⟨["number"]⟩⟩, ⟨"b", ⟨["number"]⟩⟩], .standard, [.output]⟩]
  clauses := [taking]

/-- A shop has sold three items at 30, 5 and 30, and the second of them is returned. -/
def someSales : Store :=
  ((((Store.empty.insert "shop" [1]).insert "sale" [1, 7, 30]).insert "sale" [1, 8, 5]).insert "sale" [1, 9, 30]).insert
    "returned" [8]

theorem aggregates_taking : clauseAggregates taking = [sumOfPrices] := by
  decide +kernel

theorem binds_taking {name : String} : taking.binds name = true ↔ name = "shop" := by
  rw [Clause.binds_iff]
  simp [taking, Clause.positiveAtoms, Literal.positiveAtom?]

theorem folding_taking : taking.Folding takings where
  rule := rfl
  head := by decide
  body := by simp [taking, Literal.Plain, Argument.isDirect, Argument.isComputed, Aggregate.toArgument]
  aggregates := by
    rw [aggregates_taking]
    simp only [List.mem_singleton, forall_eq]
    constructor <;> simp [sumOfPrices, sale, Literal.Plain, Argument.isDirect, Argument.isTerm]
  declared := by decide
  others := by decide
  unequated := by
    have onlySum (name : String) (different : name ≠ "sum") :
        ∀ literal ∈ taking.body, ∀ other, ¬Equates name other literal := by
      intro literal member other equates
      cases equates <;> simp [taking, Aggregate.toArgument] at member
      exact different member.1
    have unmentioned : "sum" ∉ sumOfPrices.toArgument.variables := by decide +kernel
    rw [aggregates_taking]
    intro aggregate isSum name mentioned
    rw [List.mem_singleton.1 isSum] at mentioned
    exact .inr (onlySum name fun same => unmentioned (same ▸ mentioned))

theorem rows_someSales :
    storedRows someSales sale.relation = [[1, 7, 30], [1, 8, 5], [1, 9, 30]] ∧
      storedRows someSales ⟨["returned"]⟩ = [[8]] ∧ storedRows someSales ⟨["shop"]⟩ = [[1]] := by
  decide

section Sum

variable {ordinal : String → Int64} {words : Valuation} {shop item price : Int64}

theorem within_taking {name : String} :
    words.within taking.binds sale.args [shop, item, price] name =
      if name = "shop" then words "shop" else if name = "item" then item else if name = "price" then price else 0 := by
  rw [Valuation.within]
  by_cases name = "shop" <;> by_cases name = "item" <;> by_cases name = "price" <;> simp_all [binds_taking, sale]

theorem match_sale {row : Row} :
    Argument.Match ordinal words sale.args row ↔ [words "shop", words "item", words "price"] = row := by
  rcases row with _ | ⟨_, _ | ⟨_, _ | ⟨_, _ | _⟩⟩⟩ <;> simp [sale, Argument.Match, Argument.value]

theorem admits_sumOfPrices :
    sumOfPrices.Admits ordinal (storedRows someSales) sale (words.within taking.binds sale.args [shop, item, price])
        [shop, item, price] ↔
      words "shop" = shop ∧ [words "shop", item, price] ∈ storedRows someSales sale.relation ∧ item ≠ 8 := by
  obtain ⟨_, returned, _⟩ := rows_someSales
  rw [Aggregate.Admits, match_sale]
  simp [sumOfPrices, Literal.Holds, factsOf, returned, match_sale, Argument.Match, Argument.value, within_taking]

/-- Two prices are added, although they are equal. -/
theorem result_sumOfPrices (isShop : words "shop" = 1) :
    sumOfPrices.result? ordinal (storedRows someSales) taking.binds words = some 60 := by
  obtain ⟨sales, _, _⟩ := rows_someSales
  have single : sumOfPrices.body.filterMap Literal.positiveAtom? = [sale] := rfl
  have folded (shop item price : Int64) :
      sumOfPrices.folded ordinal (words.within taking.binds sale.args [shop, item, price]) = price := by
    simp [Aggregate.folded, sumOfPrices, Argument.value, within_taking]
  have sum : sumOfPrices.function.fold [30, 30] = some 60 := by decide
  simpa [Aggregate.result?, single, sales, admits_sumOfPrices, isShop, folded] using sum

theorem instance_of_taking : [1, 60] ∈ taking.instances ordinal (storedRows someSales) := by
  obtain ⟨_, _, shops⟩ := rows_someSales
  refine ⟨fun name => if name = "shop" then 1 else 60, fun _ => 60, ⟨?_, ?_⟩, rfl⟩
  · have equal : Comparison.eq.holds 60 60 = true := by decide
    simpa [taking, Literal.HoldsWith, Literal.Holds, factsOf, shops, Argument.Match, Argument.valueWith, Argument.value,
      Aggregate.toArgument] using equal
  · rw [aggregates_taking]
    simp [result_sumOfPrices]

end Sum

/-- The shop's row is inserted with the sum. -/
theorem query_inserts_instances_takings :
    ∃ (plan : Plan) (body : Placed Stmt) (last : Draft) (state : State), Plan.of takings .seminaive false = .ok plan ∧
      taking.Folding plan.program ∧ outcome (lowerComplete plan taking 0 .insertion) .empty = (.ok body, last) ∧
      state.symbols.Extends last.symbols ∧ HasShape plan.program state.store ∧
      Adds body.tree state "takes" (taking.instances state.symbols.ordinal (storedRows state.store)) ∧
      [1, 60] ∈ taking.instances state.symbols.ordinal (storedRows state.store) := by
  obtain ⟨plan, planned, isProgram, strategy, isSome⟩ : ∃ plan, Plan.of takings .seminaive false = .ok plan ∧
      plan.program = takings ∧ plan.strategy = .seminaive ∧ (clauseCode (fun _ => 0) plan taking 0 .complete).isSome :=
    ⟨_, rfl, rfl, rfl, by decide +kernel⟩
  have lowerable : Clause.Lowerable plan.program taking := isSome_clauseCode_iff.1 isSome
  obtain ⟨body, last, lowered, _⟩ := Writes.exists_ok
    (fun ordinal => @Translation.writes ordinal plan .complete taking 0)
    (fun _ => isSome_clauseCode_iff.2 lowerable) .empty
  have folding : taking.Folding plan.program := isProgram ▸ folding_taking
  have distinct : (tableNames plan.program).Nodup := by
    rw [isProgram]
    decide
  have shaped : HasShape plan.program someSales := by
    rw [isProgram]
    intro part
    cases part <;> decide
  let state : State := ⟨someSales, last.symbols, 0, []⟩
  have known : state.symbols.Extends last.symbols := Symbols.Extends.refl _
  exact ⟨plan, body, last, state, planned, folding, lowered, known, shaped,
    query_inserts_instances distinct strategy folding lowered known shaped, instance_of_taking⟩

end Lowering

end DatalogRam
