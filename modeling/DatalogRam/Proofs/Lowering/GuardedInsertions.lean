import DatalogRam.Proofs.Lowering.ProgramCode
import DatalogRam.Proofs.Provenance.Repetitions

/-!
# What a guard looks up is what is inserted

Where the insertion of a head stands under an existence check, the check looks up the values of the head's arguments
in the relation of the head, and the insertion evaluates the arguments once more. If none of them counts, the two
evaluations agree, also where the first one interns a text. So a row is inserted only if no row of the relation has
its logical columns, and the rows that a run of the query inserts are new one after another.

A head that counts is looked up with one value and inserted with another.
-/

namespace DatalogRam

open Machine Ram

namespace Lowering

/-- The second store is the first one after insertions into a table of rows that are new to the given relation. -/
inductive InsertsNew (relation target : String) (arity auxiliary : Nat) (start : Store) : Store → Prop where
  | none : InsertsNew relation target arity auxiliary start start
  | insert {store : Store} {row : Row} : InsertsNew relation target arity auxiliary start store →
      NewTo (store.rows relation) arity auxiliary row →
      InsertsNew relation target arity auxiliary start (store.insert target row)

/-- An operation that ends in another one, within scans, filters and aggregates. -/
inductive Op.EndsIn (inner : Op) : Op → Prop where
  | here : EndsIn inner inner
  | scan {relation : String} {tuple : Nat} {operation : Op} : EndsIn inner operation →
      EndsIn inner (.scan relation tuple operation)
  | filter {condition : Cond} {operation : Op} : EndsIn inner operation → EndsIn inner (.filter condition operation)
  | aggregate {relation : String} {tuple : Nat} {function : Aggregation} {value : Option Expr}
      {condition : Cond} {operation : Op} : EndsIn inner operation →
      EndsIn inner (.aggregate relation tuple function value condition operation)

variable {plan : Plan} {clause : Clause} {id : Nat} {args : Row}

/-- A check and an insertion after it look up and insert the same logical columns. If the check finds nothing, the row
is new. -/
structure Tests (plan : Plan) (head : Atom) (looked values : List Expr) : Prop where
  agree : ∀ {args : Row} {state asked last : State} {pattern : List (Option Int64)} {row : Row},
    Returns (evalPattern args looked) state pattern asked → Returns (evalExprs args values) asked row last →
      pattern = (row.take head.arity).map some ++ List.replicate plan.auxiliary none
  new : ∀ {args : Row} {state tested last : State} {row : Row},
    Returns (evalCond args (.not (.holds head.relation.text looked))) state true tested →
      Returns (evalExprs args values) tested row last →
        last.store = state.store ∧ NewTo (state.store.rows head.relation.text) head.arity plan.auxiliary row

/-- The check of a head that does not count tests what is inserted. -/
theorem tests_of_uncounted {head : Atom} {logical auxiliary : List Expr} (length : logical.length = head.arity)
    (bookkeeping : auxiliary.length = plan.auxiliary) (uncounted : Expr.anyCounts logical = false) :
    Tests plan head (logical ++ List.replicate plan.auxiliary .undefined) (logical ++ auxiliary) := by
  constructor
  · intro args state asked last pattern row asks evaluated
    exact length ▸ pattern_of_guard uncounted asks evaluated
  · intro args state tested last row guards evaluated
    obtain ⟨isNew, keeps⟩ := new_of_guard uncounted bookkeeping guards evaluated
    exact ⟨keeps, length ▸ isNew⟩

/-- A run of an operation that ends in a tested insertion inserts new rows. -/
theorem insertsNew_of_endsIn {head : Atom} {looked values : List Expr} {target : String} {operation : Op}
    {start : Store}
    (tests : Tests plan head looked values)
    (ends : Op.EndsIn (.filter (.not (.holds head.relation.text looked)) (.insert target values)) operation) :
    Op.Keeps args (InsertsNew head.relation.text target head.arity plan.auxiliary start) operation := by
  induction ends with
  | scan _ keeps => exact keeps.scan _ _
  | filter _ keeps => exact keeps.filter _
  | aggregate _ keeps => exact keeps.aggregate _ _ _ _ _
  | here =>
      intro state last flow sofar returns
      rw [runOp] at returns
      obtain ⟨answer, tested, guards, returns⟩ := returns.of_bind
      cases answer with
      | false =>
          obtain ⟨rfl, rfl⟩ := returns.eq_of_pure
          rw [(evaluates_cond guards).store]
          exact ⟨rfl, sofar⟩
      | true =>
          rw [if_pos rfl, runOp] at returns
          obtain ⟨row, evaluated, isRow, returns⟩ := returns.of_bind
          obtain ⟨keeps, isNew⟩ := tests.new guards isRow
          obtain ⟨_, changed, changes, done⟩ := returns.of_bind
          obtain ⟨_, rfl⟩ := changes.unique (Returns.modify _ evaluated)
          obtain ⟨rfl, rfl⟩ := done.eq_of_pure
          have inserted := sofar.insert isNew
          rw [← keeps] at inserted
          exact ⟨rfl, inserted⟩

/-- The insertion of a head under provenance, or of a rule in a loop, stands under an existence check. -/
theorem headCode_guarded {ordinal : String → Int64} {sites : Sites} {level : Expr} {incremental : Bool} {operation : Op}
    (guarded : plan.strategy = .provenance ∨ incremental = true)
    (uncounted : Argument.anyCounts clause.head.args = false)
    (code : headCode ordinal plan clause id sites level incremental = some operation) :
    ∃ looked values,
      operation = .filter (.not (.holds clause.head.relation.text looked))
        (.insert (if incremental then freshName clause.head.relation else clause.head.relation.text) values) ∧
      Tests plan clause.head looked values := by
  obtain ⟨logical, auxiliary, areLogical, isAuxiliary, rfl⟩ := headCode_eq_some code
  obtain ⟨length, counts⟩ := spec_of_valueCodes _ areLogical
  have checks : (decide (0 < plan.auxiliary) || incremental) = true := by
    rcases guarded with strategy | isIncremental
    · rw [auxiliary_of_provenance strategy]
      rfl
    · rw [isIncremental, Bool.or_true]
  refine ⟨_, _, ?_, tests_of_uncounted length (bookkeeping_eq_some isAuxiliary).1 (counts.trans uncounted)⟩
  rw [insertionCode, guardCode, if_pos checks]
  rfl

/-- Whether a translation inserts rows for a loop, apart from the others. -/
def Translation.findsNew (clause : Clause) (translation : Translation) : Bool :=
  !clause.isFact && (translation.version clause).isIncremental

/-- A query ends in a check of the relation of a head and an insertion behind it. The check looks up the logical columns
of the row that is inserted, and the rows that a run inserts are new. -/
def TestsInsertion (plan : Plan) (clause : Clause) (query : Stmt) : Prop :=
  ∃ looked target values operation, query = withText plan clause (.query operation) ∧
    Op.EndsIn (.filter (.not (.holds clause.head.relation.text looked)) (.insert target values)) operation ∧
    Tests plan clause.head looked values ∧
    ∀ (rounds : Nat) (args : Row) (state final : State) (flow : Flow),
      Returns (runStmt rounds args query) state flow final →
        InsertsNew clause.head.relation.text target clause.head.arity plan.auxiliary state.store final.store

/-- Where the insertion of a clause's head is guarded by an existence check, and the head does not count, the check
looks up the logical columns of the row that is inserted behind it. -/
theorem guard_tests_insertion {translation : Translation}
    (guarded : plan.strategy = .provenance ∨ translation.findsNew clause = true)
    (uncounted : Argument.anyCounts clause.head.args = false) {draft last : Draft} {body : Placed Stmt}
    (lowered : outcome (translation.lower plan clause id) draft = (.ok body, last)) :
    TestsInsertion plan clause body.tree := by
  have gives := (@Translation.writes last.symbols.ordinal plan translation clause id).gives draft
  rw [lowered] at gives
  have code := (gives (Symbols.agrees_ordinal last.symbols)).symm
  obtain ⟨operation, isTree, looked, target, values, ends, tests⟩ :=
    @of_clauseCode last.symbols.ordinal plan clause id (translation.version clause)
      (fun operation => ∃ looked target values,
        Op.EndsIn (.filter (.not (.holds clause.head.relation.text looked)) (.insert target values)) operation ∧
          Tests plan clause.head looked values) body.tree
      (fun _ _ ⟨looked, target, values, ends, tests⟩ => ⟨looked, target, values, ends.filter, tests⟩)
      (fun _ _ _ _ _ _ ⟨looked, target, values, ends, tests⟩ => ⟨looked, target, values, ends.aggregate, tests⟩)
      (fun _ _ _ ⟨looked, target, values, ends, tests⟩ => ⟨looked, target, values, ends.scan, tests⟩)
      (fun sites level operation isHead => by
        obtain ⟨looked, values, rfl, tests⟩ := headCode_guarded guarded uncounted isHead
        exact ⟨looked, _, values, .here, tests⟩) code
  refine ⟨looked, target, values, operation, isTree, ends, tests, fun rounds args state final flow returns => ?_⟩
  have keeps : Op.Keeps args (InsertsNew clause.head.relation.text target clause.head.arity plan.auxiliary state.store)
      operation := insertsNew_of_endsIn tests ends
  have maintains : Maintains args [body.tree]
      (InsertsNew clause.head.relation.text target clause.head.arity plan.auxiliary state.store)
      (InsertsNew clause.head.relation.text target clause.head.arity plan.auxiliary state.store) :=
    isTree ▸ maintains_withText keeps.maintains
  exact (maintains rounds state final flow .none ((runStmts_singleton ..).symm ▸ returns)).2

/-- Whoever calls is called louder: the head interns a text. -/
def louder : Clause where
  head := ⟨⟨["call"]⟩, [.operator .cat [.var "x", .constant (.string "!")]]⟩
  body := [.positive ⟨["call"]⟩ [.var "x"]]

def calls : Program where
  types := []
  relations := [⟨⟨["call"]⟩, [⟨"a", ⟨["symbol"]⟩⟩], .standard, []⟩]
  clauses := [⟨⟨⟨["call"]⟩, [.constant (.string "hey")]⟩, []⟩, louder]

/-- The version of the rule for the loop tests the text that it inserts. -/
theorem guard_tests_insertion_louder :
    ∃ plan body last, Plan.of calls .seminaive false = .ok plan ∧ Argument.anyCounts louder.head.args = false ∧
      outcome ((Translation.incremental [⟨["call"]⟩] 0).lower plan louder 1) .empty = (.ok body, last) ∧
      TestsInsertion plan louder body.tree := by
  obtain ⟨plan, planned⟩ : ∃ plan, Plan.of calls .seminaive false = .ok plan := ⟨_, rfl⟩
  obtain ⟨body, last, lowered, _⟩ := Writes.exists_ok
    (fun ordinal => @Translation.writes ordinal plan (.incremental [⟨["call"]⟩] 0) louder 1)
    (fun ordinal => by
      cases planned
      rfl) .empty
  exact ⟨plan, body, last, planned, rfl, lowered, guard_tests_insertion (.inr rfl) rfl lowered⟩

/-- A rule that draws the parity of the counter for every item. -/
def drawing : Clause where
  head := ⟨⟨["drawn"]⟩, [.operator .mod [.counter, .constant (.number 2)]]⟩
  body := [.positive ⟨["item"]⟩ [.var "x"]]

/-- One number is drawn already. -/
def draws : Program where
  types := []
  relations :=
    [⟨⟨["item"]⟩, [⟨"a", ⟨["number"]⟩⟩], .standard, []⟩, ⟨⟨["drawn"]⟩, [⟨"a", ⟨["number"]⟩⟩], .standard, [.output]⟩]
  clauses :=
    [⟨⟨⟨["item"]⟩, [.constant (.number 5)]⟩, []⟩, ⟨⟨⟨["drawn"]⟩, [.constant (.number 1)]⟩, []⟩, drawing]

/-- `draws`, lowered for provenance. -/
def recordedDraws : Ram.Program :=
  ((lowerProgram draws .provenance false).result.toOption).getD ⟨.empty, [], ⟨0, .sequence []⟩, [], .empty⟩

/-- The state of a run of `draws` when the rule has come to its item. -/
def beforeDrawing : State where
  store := (Store.empty.insert "item" [5, 0, 0]).insert "drawn" [1, 0, 0]
  symbols := .empty
  counter := 0
  bindings := [(0, [5, 0, 0])]

/-- The guard of a head that counts looks up zero, and one is inserted behind it, which a row has already. -/
theorem drawing_inserts_untested :
    ∃ plan body last looked values asked final, Plan.of draws .provenance false = .ok plan ∧
      outcome (Translation.complete.lower plan drawing 2) .empty = (.ok body, last) ∧
      body.tree = .query (.scan "item" 0 (.filter (.not (.holds "drawn" looked)) (.insert "drawn" values))) ∧
      Returns (evalPattern [] looked) beforeDrawing [some 0, none, none] asked ∧
      (beforeDrawing.store.rows "drawn").anyFits [some 0, none, none] = false ∧
      Returns (evalExprs [] values) asked [1, 1, 1] final ∧ [1, 0, 0] ∈ beforeDrawing.store.rows "drawn" ∧
      (((runMain recordedDraws 1).run.run (.start recordedDraws .empty)).2.store.rows "drawn").toList =
        [[1, 0, 0], [1, 1, 1]] := by
  obtain ⟨plan, planned⟩ : ∃ plan, Plan.of draws .provenance false = .ok plan := ⟨_, rfl⟩
  obtain ⟨body, last, lowered, code⟩ := Writes.exists_ok
    (fun ordinal => @Translation.writes ordinal plan .complete drawing 2)
    (fun ordinal => by
      cases planned
      rfl) .empty
  have isTree : body.tree = .query (.scan "item" 0 (.filter
      (.not (.holds "drawn" [.operator .mod [.autoIncrement, .signed 2], .undefined, .undefined]))
      (.insert "drawn" [.operator .mod [.autoIncrement, .signed 2], .signed 1,
        .operator .add [.element 0 2, .signed 1]]))) := by
    have isCode := code _ (Symbols.agrees_ordinal last.symbols)
    cases planned
    exact (Option.some.inj isCode).symm
  refine ⟨plan, body, last, _, _, _, _, planned, lowered, isTree, rfl, by decide, rfl, ?_, by decide +kernel⟩
  rw [Rows.mem_def]
  decide

end Lowering

end DatalogRam
