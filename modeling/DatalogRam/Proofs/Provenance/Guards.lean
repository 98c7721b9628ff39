import DatalogRam.Proofs.Lowering.StratumQueries
import DatalogRam.Proofs.Machine.Maintains
import DatalogRam.Proofs.Query.Values

/-!
# What guarded queries insert

Under provenance the query of a clause inserts a row only if the relation of its head has no row with the same
logical columns. The guard and the insertion evaluate the head one after the other, so this holds if the head does
not count.
-/

namespace DatalogRam

open Machine Ram

mutual

/-- Whether evaluating an argument moves the counter. The rows of an aggregate are folded elsewhere. -/
def Argument.counts : Argument → Bool
  | .counter => true
  | .operator _ args => Argument.anyCounts args
  | .external _ args => Argument.anyCounts args
  | .record args => Argument.anyCounts args
  | .var _ | .unnamed | .constant _ | .aggregate .. => false

def Argument.anyCounts : List Argument → Bool
  | [] => false
  | arg :: args => arg.counts || Argument.anyCounts args

end

namespace Lowering

variable {ordinal : String → Int64} {plan : Plan} {sites : Sites} {args : Row}

mutual

/-- The code of an argument counts if the argument does. -/
theorem counts_of_valueCode : ∀ (arg : Argument) {expr : Expr}, valueCode ordinal sites arg = some expr →
    expr.counts = arg.counts
  | .var _, _, code | .aggregate .., _, code => by
      obtain ⟨site, _, rfl⟩ := Option.map_eq_some_iff.1 code
      rfl
  | .unnamed, _, code | .counter, _, code => by
      cases code
      rfl
  | .constant value, _, code => by
      cases code
      cases value <;> rfl
  | .operator _ operands, _, code | .external _ operands, _, code | .record operands, _, code => by
      obtain ⟨exprs, areExprs, rfl⟩ := Option.map_eq_some_iff.1 code
      exact (spec_of_valueCodes operands areExprs).2

/-- The code of arguments has one expression for each, and counts if they do. -/
theorem spec_of_valueCodes : ∀ (operands : List Argument) {exprs : List Expr},
    valueCodes ordinal sites operands = some exprs →
      exprs.length = operands.length ∧ Expr.anyCounts exprs = Argument.anyCounts operands
  | [], _, code => by
      cases code
      exact ⟨rfl, rfl⟩
  | arg :: operands, _, code => by
      obtain ⟨first, others, isFirst, areOthers, rfl⟩ := valueCodes_cons_eq_some code
      obtain ⟨length, counts⟩ := spec_of_valueCodes operands areOthers
      exact ⟨congrArg Nat.succ length, congrArg₂ (· || ·) (counts_of_valueCode arg isFirst) counts⟩

end

/-! ## Guards -/

/-- A row whose logical columns no row of a table has, whatever stands in the other columns of these. -/
structure NewTo (rows : Rows) (arity auxiliary : Nat) (row : Row) : Prop where
  length : row.length = arity + auxiliary
  unseen : ∀ extra : Row, extra.length = auxiliary → row.take arity ++ extra ∉ rows

/-- A row of a rule whose logical columns no row of a table has. -/
structure Unseen (rows : Rows) (arity : Nat) (number : Int64) (row : Row) : Prop where
  length : row.length = arity + 2
  number : row[arity]? = some number
  unseen : ∀ other ∈ rows, other.length = arity + 2 → other.take arity ≠ row.take arity

/-- A guard asks for the logical columns that the row has which is evaluated after it. -/
theorem pattern_of_guard {logical more : List Expr} {auxiliary : Nat} {state asked last : State}
    {pattern : List (Option Int64)} {row : Row} (uncounted : Expr.anyCounts logical = false)
    (asks : Returns (evalPattern args (logical ++ List.replicate auxiliary .undefined)) state pattern asked)
    (evaluated : Returns (evalExprs args (logical ++ more)) asked row last) :
    pattern = (row.take logical.length).map some ++ List.replicate auxiliary none := by
  obtain ⟨front, between, back, rfl, isFront, isBack⟩ := asks.of_evalPattern_append
  obtain ⟨rfl, rfl⟩ := isBack.unique (returns_wildcards auxiliary)
  obtain ⟨values, valued, others, rfl, areValues, _⟩ := evaluated.of_evalExprs_append
  have keeps := evaluates_pattern isFront
  obtain ⟨rfl, rfl⟩ := pattern_eq_of_values uncounted isFront keeps.bindings (.refl _) areValues
  rw [← length_of_evalExprs areValues, List.take_left]

/-- A guard that holds has looked for a row in vain. -/
theorem of_guard {relation : String} {values : List Expr} {state tested : State}
    (guards : Returns (evalCond args (.not (.holds relation values))) state true tested) :
    ∃ pattern, Returns (evalPattern args values) state pattern tested ∧ tested.store = state.store ∧
      (state.store.rows relation).anyFits pattern = false := by
  rw [evalCond] at guards
  obtain ⟨answer, middle, isAnswer, negated⟩ := guards.of_bind
  obtain ⟨notAnswer, rfl⟩ := negated.eq_of_pure
  rw [evalCond] at isAnswer
  obtain ⟨pattern, asked, asks, isAnswer⟩ := isAnswer.of_bind
  have keeps := (evaluates_pattern asks).store
  cases isAnswer
  refine ⟨pattern, asks, keeps, ?_⟩
  rw [← keeps]
  simpa using notAnswer.symm

/-- Behind a guard that holds, only new rows are inserted. -/
theorem new_of_guard {relation : String} {logical more : List Expr} {auxiliary : Nat} {state tested last : State}
    {row : Row} (uncounted : Expr.anyCounts logical = false) (count : more.length = auxiliary)
    (guards : Returns (evalCond args (.not (existence relation logical auxiliary))) state true tested)
    (evaluated : Returns (evalExprs args (logical ++ more)) tested row last) :
    NewTo (state.store.rows relation) logical.length auxiliary row ∧ last.store = state.store := by
  obtain ⟨pattern, asks, keeps, unfit⟩ := of_guard guards
  have long : row.length = logical.length + auxiliary := by
    rw [length_of_evalExprs evaluated, List.length_append, count]
  have taken : (row.take logical.length).length = logical.length := by
    rw [List.length_take, long]
    omega
  refine ⟨⟨long, fun extra isExtra member => ?_⟩, (evaluates_exprs _ evaluated).store.trans keeps⟩
  have fits : Row.fits pattern (row.take logical.length ++ extra) = true := by
    rw [pattern_of_guard uncounted asks evaluated, fits_values, List.take_left]
    exact ⟨by rw [List.length_append, isExtra], rfl⟩
  rw [Rows.anyFits, List.any_eq_false] at unfit
  exact unfit _ member fits

/-- Behind a guard that holds, only unseen rows are inserted. -/
theorem unseen_of_guard {relation : String} {logical : List Expr} {number : Int64} {level : Expr}
    {state tested last : State} {row : Row} (uncounted : Expr.anyCounts logical = false)
    (guards : Returns (evalCond args (.not (existence relation logical 2))) state true tested)
    (returns : Returns (evalExprs args (logical ++ [.signed number, level])) tested row last) :
    Unseen (state.store.rows relation) logical.length number row ∧ last.store = state.store := by
  have two : [Expr.signed number, level].length = 2 := rfl
  obtain ⟨isNew, keeps⟩ := new_of_guard uncounted two guards returns
  obtain ⟨values, valued, more, rfl, areValues, areMore⟩ := Returns.of_evalExprs_append returns
  have length := length_of_evalExprs areValues
  obtain ⟨others, rfl⟩ : ∃ others, more = number :: others := by
    rw [evalExprs] at areMore
    obtain ⟨first, one, isFirst, areMore⟩ := areMore.of_bind
    obtain ⟨others, two, _, done⟩ := areMore.of_bind
    rw [evalExpr] at isFirst
    obtain ⟨rfl, rfl⟩ := isFirst.eq_of_pure
    exact ⟨others, done.eq_of_pure.1⟩
  refine ⟨⟨isNew.length, by simp [← length], fun other member long same => ?_⟩, keeps⟩
  apply isNew.unseen (other.drop logical.length)
  · rw [List.length_drop, long]
    omega
  · rw [← same, List.take_append_drop]
    exact member

/-- A guarded insertion keeps what the insertion of unseen rows keeps. -/
theorem keeps_insertion {head : Atom} {logical : List Expr} {number : Int64} {level : Expr} {incremental : Bool}
    {property : Store → Prop} (isProvenance : plan.auxiliary = 2) (uncounted : Expr.anyCounts logical = false)
    (insert : ∀ store row, property store → Unseen (store.rows head.relation.text) logical.length number row →
      property (store.insert (if incremental then freshName head.relation else head.relation.text) row)) :
    Op.Keeps args property (insertionCode plan head logical [.signed number, level] incremental) := by
  have isGuarded : guardCode plan head logical incremental =
      some (.not (existence head.relation.text logical 2)) := by
    rw [guardCode, isProvenance]
    rfl
  rw [insertionCode, isGuarded]
  intro state last flow holds returns
  rw [Op.underGuard, runOp] at returns
  obtain ⟨answer, tested, isAnswer, returns⟩ := returns.of_bind
  cases answer with
  | false =>
      obtain ⟨rfl, rfl⟩ := returns.eq_of_pure
      exact ⟨rfl, by rwa [(evaluates_cond isAnswer).store]⟩
  | true =>
      rw [if_pos rfl, runOp] at returns
      obtain ⟨row, evaluated, isRow, returns⟩ := returns.of_bind
      obtain ⟨unseen, sameStore⟩ := unseen_of_guard uncounted isAnswer isRow
      obtain ⟨_, changed, changes, done⟩ := returns.of_bind
      obtain ⟨_, rfl⟩ := changes.unique (Returns.modify _ evaluated)
      obtain ⟨rfl, rfl⟩ := done.eq_of_pure
      exact ⟨rfl, insert _ row (sameStore ▸ holds) (sameStore ▸ unseen)⟩

/-! ## Queries of clauses -/

variable {clause : Clause} {id : Nat} {version : Version} {statement : Stmt} {property : Store → Prop}
variable {operation result : Op}

theorem keeps_head {sites : Sites} {level : Expr} {incremental : Bool} (strategy : plan.strategy = .provenance)
    (uncounted : Argument.anyCounts clause.head.args = false)
    (insert : ∀ number, plan.clauseNumber clause id = .ok number → ∀ store row, property store →
      Unseen (store.rows clause.head.relation.text) clause.head.arity (Int64.ofNat number) row →
        property (store.insert (if incremental then freshName clause.head.relation else clause.head.relation.text)
          row))
    (code : headCode ordinal plan clause id sites level incremental = some operation) :
    Op.Keeps args property operation := by
  obtain ⟨logical, auxiliary, areLogical, isAuxiliary, rfl⟩ := headCode_eq_some code
  rw [bookkeeping, strategy] at isAuxiliary
  obtain ⟨number, isNumber, same⟩ := Option.bind_eq_some_iff.1 isAuxiliary
  cases same
  obtain ⟨length, counts⟩ := spec_of_valueCodes _ areLogical
  refine keeps_insertion (auxiliary_of_provenance strategy) (counts.trans uncounted) fun store row holds unseen => ?_
  rw [length] at unseen
  have numbered : plan.clauseNumber clause id = .ok number := by
    cases found : plan.clauseNumber clause id with
    | error error =>
        rw [found] at isNumber
        cases isNumber
    | ok value =>
        rw [found] at isNumber
        cases isNumber
        rfl
  exact insert number numbered store row holds unseen

theorem maintains_withText {query : Stmt} (maintains : Maintains args [query] property property) :
    Maintains args [withText plan clause query] property property := by
  rw [withText]
  split
  · exact maintains.debug
  · exact maintains

/-- The query of a clause maintains what the insertion of its unseen rows keeps. -/
theorem maintains_clauseCode (strategy : plan.strategy = .provenance)
    (uncounted : Argument.anyCounts clause.head.args = false) (once : clause.isFact = true → version = .complete)
    (insert : ∀ number, plan.clauseNumber clause id = .ok number → ∀ store row, property store →
      Unseen (store.rows clause.head.relation.text) clause.head.arity (Int64.ofNat number) row →
        property (store.insert
          (if version.isIncremental then freshName clause.head.relation else clause.head.relation.text) row))
    (code : clauseCode ordinal plan clause id version = some statement) :
    Maintains args [statement] property property := by
  obtain ⟨operation, rfl, keeps⟩ := @of_clauseCode ordinal plan clause id version (Op.Keeps args property) statement
    (fun condition _ keeps => keeps.filter condition)
    (fun relation tuple function value condition _ keeps => keeps.aggregate relation tuple function value condition)
    (fun relation tuple _ keeps => keeps.scan relation tuple)
    (fun sites level operation isHead => by
      refine keeps_head strategy uncounted (fun number isNumber store row holds unseen => ?_) isHead
      have inserted := insert number isNumber store row holds unseen
      cases isFact : clause.isFact with
      | false => exact inserted
      | true =>
          rw [once isFact] at inserted
          exact inserted) code
  exact maintains_withText keeps.maintains

end Lowering

end DatalogRam
