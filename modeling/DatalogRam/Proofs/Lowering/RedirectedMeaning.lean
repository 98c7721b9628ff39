import DatalogRam.Proofs.Lowering.Explaining
import DatalogRam.Proofs.Lowering.SlotOrder
import DatalogRam.Proofs.Lowering.ValueLayout
import DatalogRam.Proofs.Machine.StaleRows

/-!
# What redirected code means

A subroutine gets as arguments what a query has in its rows. Code over the slots of a clause reads the first column of
a row for each variable, and redirected it reads the argument with the number of that row. So with the rows' values as
arguments, redirected code does what the code did, errors and effects included. Only a variable that is erased has no
argument: its reads become wildcards.
-/

namespace DatalogRam.Lowering

open Ram Machine

/-! ## Rows and arguments -/

/-- A leaf that has an argument for what it reads: the first column of one of the first rows. Other leaves read
neither rows nor arguments. -/
def Passable (count : Nat) : Expr → Prop
  | .element tuple column => tuple < count ∧ column = 0
  | .argument _ => False
  | _ => True

/-- States with the same data, where the second one has the arguments of the first one in rows. -/
structure PassedAs (args : Row) (state other : State) : Prop where
  data : state.SameData other
  rows : ∀ slot value, args[slot]? = some value → other.bindings.lookup slot = some [value]

variable {α : Type} {slots : Slots} {args passed : Row}

namespace PassedAs

theorem runOperator (op : Operator) (values : List Int64) : Blind (PassedAs args) (runOperator op values) := by
  intro state other passed
  rw [Returns.run_runOperator, Returns.run_runOperator, passed.data.symbols]
  split
  · exact ⟨.error _, passed⟩
  · exact ⟨.ok rfl, ⟨passed.data.store, rfl, passed.data.counter, fun _ => False.elim⟩, passed.rows⟩

theorem nextCount : Blind (PassedAs args) nextCount := by
  intro state other passed
  refine ⟨?_, ⟨passed.data.store, passed.data.symbols, congrArg (· + 1) passed.data.counter, fun _ => False.elim⟩,
    passed.rows⟩
  change Agreeing _ (.ok state.counter) (.ok other.counter)
  rw [passed.data.counter]
  exact .ok rfl

/-- An argument is what the row has in its first column. -/
theorem argument {slot : Nat} (inside : slot < args.length) :
    SideBySide (PassedAs args) (· = ·) (evalExpr args (.argument slot)) (evalExpr passed (.element slot 0)) := by
  intro state other passed
  have isValue := List.getElem?_eq_getElem inside
  have here : (evalExpr args (.argument slot)).run.run state = (.ok args[slot], state) := by
    simp only [evalExpr, isValue]
    rfl
  have there : (elementOf slot 0).run.run other = (.ok args[slot], other) :=
    Returns.elementOf (passed.rows slot _ isValue) rfl
  rw [here, evalExpr, there]
  exact ⟨.ok rfl, passed⟩

/-- Code that only looks at the data. -/
theorem ofState {code : State → Exec α} (same : ∀ state other, state.SameData other → code state = code other)
    (each : ∀ state, Blind (PassedAs args) (code state)) : Blind (PassedAs args) (get >>= code) := by
  apply SideBySide.bind SideBySide.get
  intro state other passed
  rw [same state other passed.data]
  exact each other

end PassedAs

/-! ## Evaluation -/

section Evaluation

mutual

/-- The redirected expression has the value, or the error, that the expression has over the rows. -/
theorem passed_evalExpr (enough : args.length = slots.size) : ∀ (expr : Expr) {redirected : Expr},
    (∀ leaf ∈ expr.leaves, Passable slots.size leaf) → expr.replace slots.redirect = .ok redirected →
      SideBySide (PassedAs args) (· = ·) (evalExpr args redirected) (evalExpr passed expr)
  | .element tuple column, _, passable, replaced => by
      obtain ⟨inside, rfl⟩ := passable _ (List.mem_singleton_self _)
      have answer : slots.redirect (.element tuple 0 : ExprNode Expr) = .ok (some (.argument tuple)) :=
        redirect_slot inside
      cases (Expr.replace_of_some answer).symm.trans replaced
      exact PassedAs.argument (enough ▸ inside)
  | .argument index, _, passable, _ => (passable _ (List.mem_singleton_self _)).elim
  | .signed _, _, _, replaced | .unsigned _, _, _, replaced | .float _, _, _, replaced => by
      cases replaced
      exact .pure rfl
  | .undefined, _, _, replaced => by
      cases replaced
      exact .throw _
  | .autoIncrement, _, _, replaced => by
      cases replaced
      exact PassedAs.nextCount
  | .external _ _, _, _, replaced | .pack _, _, _, replaced => by
      obtain ⟨_, kept, replaced⟩ := of_bind_eq_ok replaced
      cases kept
      obtain ⟨_, _, same⟩ := of_bind_eq_ok replaced
      cases same
      exact .throw _
  | .operator op operands, _, passable, replaced => by
      obtain ⟨_, kept, replaced⟩ := of_bind_eq_ok replaced
      cases kept
      obtain ⟨results, areResults, same⟩ := of_bind_eq_ok replaced
      cases same
      apply (passed_evalExprs enough operands passable areResults).bind
      rintro values _ rfl
      exact PassedAs.runOperator op values

theorem passed_evalExprs (enough : args.length = slots.size) : ∀ (exprs : List Expr) {redirected : List Expr},
    (∀ leaf ∈ Expr.leavesOfAll exprs, Passable slots.size leaf) →
      Expr.replaceAll slots.redirect exprs = .ok redirected →
        SideBySide (PassedAs args) (· = ·) (evalExprs args redirected) (evalExprs passed exprs)
  | [], _, _, replaced => by
      cases replaced
      exact .pure rfl
  | expr :: exprs, _, passable, replaced => by
      obtain ⟨first, others, isFirst, areOthers, rfl⟩ := Expr.replaceAll_cons_eq_ok replaced
      obtain ⟨inFirst, inOthers⟩ := List.forall_mem_append.1 passable
      apply (passed_evalExpr enough expr inFirst isFirst).bind
      rintro value _ rfl
      apply (passed_evalExprs enough exprs inOthers areOthers).bind
      rintro values _ rfl
      exact .pure rfl

end

/-- What is read in a row is no wildcard, and neither is its argument. -/
theorem isUndefined_replace {expr redirected : Expr} (passable : ∀ leaf ∈ expr.leaves, Passable slots.size leaf)
    (replaced : expr.replace slots.redirect = .ok redirected) : redirected.isUndefined = expr.isUndefined := by
  cases expr with
  | element tuple column =>
      obtain ⟨inside, rfl⟩ := passable _ (List.mem_singleton_self _)
      have answer : slots.redirect (.element tuple 0 : ExprNode Expr) = .ok (some (.argument tuple)) :=
        redirect_slot inside
      cases (Expr.replace_of_some answer).symm.trans replaced
      rfl
  | operator | external | pack =>
      obtain ⟨_, kept, replaced⟩ := of_bind_eq_ok replaced
      cases kept
      obtain ⟨_, _, same⟩ := of_bind_eq_ok replaced
      cases same
      rfl
  | _ =>
      cases replaced
      rfl

theorem passed_evalPattern (enough : args.length = slots.size) (exprs : List Expr) {redirected : List Expr}
    (passable : ∀ leaf ∈ Expr.leavesOfAll exprs, Passable slots.size leaf)
    (replaced : Expr.replaceAll slots.redirect exprs = .ok redirected) :
    SideBySide (PassedAs args) (· = ·) (evalPattern args redirected) (evalPattern passed exprs) := by
  induction exprs generalizing redirected with
  | nil =>
      cases replaced
      exact .pure rfl
  | cons expr exprs ih =>
      obtain ⟨first, others, isFirst, areOthers, rfl⟩ := Expr.replaceAll_cons_eq_ok replaced
      obtain ⟨inFirst, inOthers⟩ := List.forall_mem_append.1 passable
      have rest (wanted : Option Int64) : SideBySide (PassedAs args) (· = ·)
          (evalPattern args others >>= fun pattern => pure (wanted :: pattern))
          (evalPattern passed exprs >>= fun pattern => pure (wanted :: pattern)) := by
        apply (ih inOthers areOthers).bind
        rintro pattern _ rfl
        exact .pure rfl
      rw [evalPattern, evalPattern, isUndefined_replace inFirst isFirst]
      split
      · exact rest none
      · have asked : SideBySide (PassedAs args) (· = ·) (some <$> evalExpr args first)
            (some <$> evalExpr passed expr) := by
          rw [map_eq_pure_bind, map_eq_pure_bind]
          apply (passed_evalExpr enough expr inFirst isFirst).bind
          rintro value _ rfl
          exact .pure rfl
        apply asked.bind
        rintro wanted _ rfl
        exact rest wanted

/-- The redirected condition is as true as the condition is over the rows, or fails as it does. -/
theorem passed_evalCond (enough : args.length = slots.size) (condition : Cond) {redirected : Cond}
    (passable : ∀ leaf ∈ Expr.leavesOfAll condition.exprs, Passable slots.size leaf)
    (replaced : condition.replace slots.redirect = .ok redirected) :
    SideBySide (PassedAs args) (· = ·) (evalCond args redirected) (evalCond passed condition) := by
  induction condition generalizing redirected with
  | both left right isLeft isRight =>
      obtain ⟨first, isFirst, replaced⟩ := of_bind_eq_ok replaced
      obtain ⟨second, isSecond, same⟩ := of_bind_eq_ok replaced
      cases same
      have within (side : List Expr) (part : side ⊆ (Cond.both left right).exprs) :
          ∀ leaf ∈ Expr.leavesOfAll side, Passable slots.size leaf := by
        intro leaf member
        obtain ⟨expr, isExpr, inExpr⟩ := Expr.mem_leavesOfAll.1 member
        exact passable leaf (Expr.mem_leavesOfAll.2 ⟨expr, part isExpr, inExpr⟩)
      apply (isLeft (within _ (List.subset_append_left _ _)) isFirst).bind
      rintro holds _ rfl
      cases holds with
      | true => exact isRight (within _ (List.subset_append_right _ _)) isSecond
      | false => exact .pure rfl
  | not condition isInner =>
      obtain ⟨inner, replacedInner, same⟩ := of_bind_eq_ok replaced
      cases same
      apply (isInner passable replacedInner).bind
      rintro holds _ rfl
      exact .pure rfl
  | compare op left right =>
      obtain ⟨first, isFirst, replaced⟩ := of_bind_eq_ok replaced
      obtain ⟨second, isSecond, same⟩ := of_bind_eq_ok replaced
      cases same
      obtain ⟨inLeft, inRight⟩ := List.forall_mem_append.1 passable
      apply (passed_evalExpr enough left inLeft isFirst).bind
      rintro value _ rfl
      apply (passed_evalExpr enough right (List.forall_mem_append.1 inRight).1 isSecond).bind
      rintro other _ rfl
      exact .pure rfl
  | holds relation values =>
      obtain ⟨results, areResults, same⟩ := of_bind_eq_ok replaced
      cases same
      apply (passed_evalPattern enough values passable areResults).bind
      rintro pattern _ rfl
      exact PassedAs.ofState (fun _ _ same => by rw [same.store]) fun _ => .pure _
  | isEmpty relation =>
      cases replaced
      exact PassedAs.ofState (fun _ _ same => by rw [same.store]) fun _ => .pure _
  | true | false =>
      cases replaced
      exact .pure rfl

end Evaluation

/-! ## Code over the slots of a clause -/

variable {ordinal : String → Int64} {clause : Clause} {plan : Plan}

mutual

/-- Without erased variables, the code of an argument reads rows that are passed as arguments. -/
theorem passable_of_valueCode : ∀ (arg : Argument) {value : Expr},
    valueCode ordinal (Slots.ofClause clause).sites arg = some value →
      (∀ name ∈ arg.variables, name ∉ (Slots.ofClause clause).erased) →
        ∀ leaf ∈ value.leaves, Passable (Slots.ofClause clause).size leaf
  | .var name, _, code, kept => by
      obtain ⟨site, isSite, rfl⟩ := Option.map_eq_some_iff.1 code
      obtain ⟨isName, isFirst⟩ := (definition?_sites_iff (nodup_rows_ofClause clause)).1 isSite
      refine List.forall_mem_singleton.2 ⟨Nat.lt_of_not_le fun behind => ?_, isFirst⟩
      rw [List.getElem?_append_right behind] at isName
      exact kept name (List.mem_singleton_self name) (List.mem_of_getElem? isName)
  | .aggregate function target body, _, code, _ => by
      rw [valueCode, aggregate?_sites] at code
      cases code
  | .operator _ args, _, code, kept | .external _ args, _, code, kept | .record args, _, code, kept => by
      obtain ⟨values, areValues, rfl⟩ := Option.map_eq_some_iff.1 code
      exact passable_of_valueCodes args areValues kept
  | .constant value, _, code, _ => by
      cases code
      cases value <;> exact List.forall_mem_singleton.2 trivial
  | .unnamed, _, code, _ | .counter, _, code, _ => by
      cases code
      exact List.forall_mem_singleton.2 trivial

theorem passable_of_valueCodes : ∀ (args : List Argument) {values : List Expr},
    valueCodes ordinal (Slots.ofClause clause).sites args = some values →
      (∀ name ∈ Argument.variablesOfAll args, name ∉ (Slots.ofClause clause).erased) →
        ∀ leaf ∈ Expr.leavesOfAll values, Passable (Slots.ofClause clause).size leaf
  | [], _, code, _ => by
      cases code
      exact fun _ member => absurd member List.not_mem_nil
  | arg :: args, _, code, kept => by
      obtain ⟨first, others, isFirst, areOthers, rfl⟩ := valueCodes_cons_eq_some code
      obtain ⟨keptFirst, keptOthers⟩ := List.forall_mem_append.1 kept
      exact List.forall_mem_append.2
        ⟨passable_of_valueCode arg isFirst keptFirst, passable_of_valueCodes args areOthers keptOthers⟩

end

theorem passable_of_constraintCode {literal : Literal} {condition : Cond}
    (code : constraintCode ordinal plan (Slots.ofClause clause).sites literal = some (some condition))
    (kept : ∀ name ∈ literal.variables, name ∉ (Slots.ofClause clause).erased) :
    ∀ leaf ∈ Expr.leavesOfAll condition.exprs, Passable (Slots.ofClause clause).size leaf := by
  cases literal with
  | positive relation args => cases code
  | negative relation args =>
      obtain ⟨_, values, areValues, same⟩ := constraintCode_negative_eq_some code
      cases same
      intro leaf member
      obtain ⟨expr, isExpr, inExpr⟩ := Expr.mem_leavesOfAll.1 member
      rcases List.mem_append.1 isExpr with isValue | isWildcard
      · exact passable_of_valueCodes args areValues kept leaf (Expr.mem_leavesOfAll.2 ⟨expr, isValue, inExpr⟩)
      · cases List.eq_of_mem_replicate isWildcard
        cases List.mem_singleton.1 inExpr
        trivial
  | comparison op left right =>
      obtain ⟨first, second, isFirst, isSecond, same⟩ := constraintCode_comparison_eq_some code
      cases same
      obtain ⟨keptLeft, keptRight⟩ := List.forall_mem_append.1 kept
      have passableRight := passable_of_valueCode right isSecond keptRight
      exact List.forall_mem_append.2 ⟨passable_of_valueCode left isFirst keptLeft,
        List.forall_mem_append.2 ⟨passableRight, nofun⟩⟩
  | truth value => cases value <;> cases code <;> exact nofun

/-- Only a positive atom has no condition. -/
theorem constraintCode_ne_none {sites : Sites} {literal : Literal} (noAtom : literal.positiveAtom? = none) :
    constraintCode ordinal plan sites literal ≠ some none := by
  intro code
  cases literal with
  | positive relation args => cases noAtom
  | negative relation args =>
      obtain ⟨_, _, _, same⟩ := constraintCode_negative_eq_some code
      cases same
  | comparison op left right =>
      obtain ⟨_, _, _, _, same⟩ := constraintCode_comparison_eq_some code
      cases same
  | truth value => cases value <;> cases code

theorem exists_replaced_constraint {slots : Slots} {literal : Literal} {condition : Cond}
    (code : constraintCode ordinal plan slots.sites literal = some (some condition)) :
    ∃ result, condition.replace slots.redirect = .ok result := by
  cases literal with
  | positive relation args => cases code
  | negative relation args =>
      obtain ⟨_, values, areValues, same⟩ := constraintCode_negative_eq_some code
      cases same
      obtain ⟨results, replaced⟩ := exists_replacedAll args areValues
      obtain ⟨check, isCheck⟩ := exists_replaced_existence relation.text plan.auxiliary replaced
      exact ⟨.not check, by rw [Cond.replace, isCheck]; rfl⟩
  | comparison op left right =>
      obtain ⟨first, second, isFirst, isSecond, same⟩ := constraintCode_comparison_eq_some code
      cases same
      obtain ⟨result, replaced⟩ := exists_replaced left isFirst
      obtain ⟨other, alsoReplaced⟩ := exists_replaced right isSecond
      exact ⟨.compare op result other, by rw [Cond.replace, replaced, alsoReplaced]; rfl⟩
  | truth value => cases value <;> cases code <;> exact ⟨_, rfl⟩

/-! ## Meaning -/

/-- Redirected code, given one argument for each slot, does what code does where the arguments are in rows. -/
def MeansSame (slots : Slots) (redirected original : Row → Exec α) : Prop :=
  ∀ args passed state other, args.length = slots.size → PassedAs args state other →
    ((redirected args).run.run state).1 = ((original passed).run.run other).1 ∧
      ((redirected args).run.run state).2.SameData ((original passed).run.run other).2

theorem MeansSame.of_sideBySide {redirected original : Row → Exec α}
    (sideBySide : ∀ args passed, args.length = slots.size →
      SideBySide (PassedAs args) (· = ·) (redirected args) (original passed)) :
    MeansSame slots redirected original := by
  intro args passed state other enough passedAs
  obtain ⟨agreeing, last⟩ := sideBySide args passed enough state other passedAs
  exact ⟨eq_of_agreeing agreeing, last.data⟩

/-- Code in a draft and what it was redirected to. Both are what the draft holds at one number, before and after. The
redirected code reads no row, and it means the same unless a variable in it is erased. -/
structure RedirectedTo {τ α : Type} (slots : Slots) (names : List String) (read : Arena → Nat → Option τ)
    (tuples : τ → List Nat) (eval : Row → τ → Exec α) (written last : Draft) (code redirected : Placed τ) : Prop where
  before : read written.arena code.id = some code.tree
  inPlace : redirected.id = code.id
  after : read last.arena code.id = some redirected.tree
  readsNoRow : tuples redirected.tree = []
  means : (∀ name ∈ names, name ∉ slots.erased) → MeansSame slots (eval · redirected.tree) (eval · code.tree)

/-- An argument is written and redirected, and means what it meant. -/
theorem exists_redirected_argument {arg : Argument} (noAggregate : Argument.aggregates arg = [])
    (within : arg.variables ⊆ clauseVariables clause) (draft : Draft) :
    ∃ value written redirected last,
      outcome (lowerValue (Slots.ofClause clause).sites arg) draft = (.ok value, written) ∧
      outcome ((Slots.ofClause clause).redirectExpr value) written = (.ok redirected, last) ∧
      RedirectedTo (Slots.ofClause clause) arg.variables Arena.exprAt? Expr.tuples evalExpr written last value
        redirected := by
  have readable := (readable_slots_iff within).2 noAggregate
  obtain ⟨value, written, ran, gives⟩ :=
    Writes.exists_ok (fun ordinal => writes_value (Slots.ofClause clause).sites arg)
      (fun ordinal => (isSome_valueCode_iff arg).2 readable) draft
  have code := gives _ (Symbols.agrees_ordinal written.symbols)
  obtain ⟨tree, replaced⟩ := exists_replaced arg code
  have lays := lays_lowerValue arg ran
  obtain ⟨arena, redirected, reads⟩ := exists_redirectExpr lays replaced
  refine ⟨value, written, _, _, ran, redirected, ?_⟩
  constructor
  case before => exact lays.holds.exprWithin? value List.mem_cons_self _ (Nat.le_refl _)
  case inPlace => rfl
  case after => exact reads
  case readsNoRow => exact Expr.tuples_replace (takesReads_redirect _) value.tree replaced
  case means =>
    exact fun kept => .of_sideBySide fun args passed enough =>
      passed_evalExpr enough value.tree (passable_of_valueCode arg code kept) replaced

/-- A negation or a constraint is written and redirected, and is as true as it was. -/
theorem exists_redirected_constraint {literal : Literal} (noAtom : literal.positiveAtom? = none)
    (readable : Literal.Readable plan.program (Slots.ofClause clause).sites literal) (draft : Draft) :
    ∃ condition written redirected last,
      outcome (lowerConstraint plan (Slots.ofClause clause).sites literal) draft = (.ok (some condition), written) ∧
      outcome ((Slots.ofClause clause).redirectCond condition) written = (.ok redirected, last) ∧
      RedirectedTo (Slots.ofClause clause) literal.variables Arena.condAt? Cond.tuples evalCond written last condition
        redirected := by
  obtain ⟨found, written, ran, gives⟩ :=
    Writes.exists_ok (fun ordinal => writes_constraint (Slots.ofClause clause).sites literal)
      (fun ordinal => isSome_constraintCode_iff.2 readable) draft
  have code := gives _ (Symbols.agrees_ordinal written.symbols)
  cases found with
  | none => exact absurd code (constraintCode_ne_none noAtom)
  | some condition =>
      obtain ⟨tree, replaced⟩ := exists_replaced_constraint code
      have lays := lays_lowerConstraint ran
      obtain ⟨arena, redirected, reads⟩ := exists_redirectCond lays replaced
      obtain ⟨values, holds⟩ := lays.holds
      refine ⟨condition, written, _, _, ran, redirected, ?_⟩
      constructor
      case before => exact holds.condWithin? (Nat.le_refl _) condition List.mem_cons_self _ (Nat.le_refl _)
      case inPlace => rfl
      case after => exact reads
      case readsNoRow => exact Cond.tuples_replace (takesReads_redirect _) replaced
      case means =>
        exact fun kept => .of_sideBySide fun args passed enough =>
          passed_evalCond enough condition.tree (passable_of_constraintCode code kept) replaced

/-- Over the slots of its clause a literal without aggregates can be read, unless it negates an undeclared relation. -/
theorem readable_or_undeclared {literal : Literal} (noAtom : literal.positiveAtom? = none)
    (noAggregate : Literal.aggregates literal = []) (within : literal.variables ⊆ clauseVariables clause) :
    Literal.Readable plan.program (Slots.ofClause clause).sites literal ∨
      ∃ relation args, literal = .negative relation args ∧ plan.program.relation? relation = none := by
  cases literal with
  | positive relation args => cases noAtom
  | negative relation args =>
      cases declared : plan.program.relation? relation with
      | none => exact .inr ⟨relation, args, rfl, declared⟩
      | some found =>
          refine .inl ⟨by rw [Program.declares, declared]; rfl, ?_⟩
          exact (readable_slots_all_iff (variables_subset_of_arg within)).2 noAggregate
  | comparison op left right =>
      obtain ⟨leftNone, rightNone⟩ := List.append_eq_nil_iff.1 noAggregate
      exact .inl ⟨(readable_slots_iff fun _ isVariable => within (List.mem_append_left _ isVariable)).2 leftNone,
        (readable_slots_iff fun _ isVariable => within (List.mem_append_right _ isVariable)).2 rightNone⟩
  | truth value => exact .inl trivial

/-- Arguments, negations and constraints without aggregates, over the variables of a clause, can be written under the
sites of its slots and redirected where they lie. The draft then holds the redirected tree, which reads no row. Unless
an erased variable is in them, it does over the arguments what the code did over the rows. Only a relation that is not
declared stands in the way of a negation. -/
theorem redirection_preserves_meaning (plan : Plan) (clause : Clause) (draft : Draft) :
    (∀ arg : Argument, Argument.aggregates arg = [] → arg.variables ⊆ clauseVariables clause →
      ∃ value written redirected last,
        outcome (lowerValue (Slots.ofClause clause).sites arg) draft = (.ok value, written) ∧
        outcome ((Slots.ofClause clause).redirectExpr value) written = (.ok redirected, last) ∧
        RedirectedTo (Slots.ofClause clause) arg.variables Arena.exprAt? Expr.tuples evalExpr written last value
          redirected) ∧
    ∀ literal : Literal, literal.positiveAtom? = none → Literal.aggregates literal = [] →
      literal.variables ⊆ clauseVariables clause →
      (∃ relation args, literal = .negative relation args ∧ plan.program.relation? relation = none ∧
        outcome (lowerConstraint plan (Slots.ofClause clause).sites literal) draft =
          (.error (.undeclaredRelation relation.text), draft)) ∨
      ∃ condition written redirected last,
        outcome (lowerConstraint plan (Slots.ofClause clause).sites literal) draft = (.ok (some condition), written) ∧
        outcome ((Slots.ofClause clause).redirectCond condition) written = (.ok redirected, last) ∧
        RedirectedTo (Slots.ofClause clause) literal.variables Arena.condAt? Cond.tuples evalCond written last condition
          redirected := by
  refine ⟨fun arg noAggregate within => exists_redirected_argument noAggregate within draft,
    fun literal noAtom noAggregate within => ?_⟩
  rcases @readable_or_undeclared clause plan literal noAtom noAggregate within with
    readable | ⟨relation, args, rfl, undeclared⟩
  · exact .inr (exists_redirected_constraint noAtom readable draft)
  · refine .inl ⟨relation, args, rfl, undeclared, ?_⟩
    have refused : plan.requireRelation relation = .error (.undeclaredRelation relation.text) := by
      rw [Plan.requireRelation, undeclared]
    change outcome (liftExcept (plan.requireRelation relation) >>= _) draft = _
    rw [refused]
    rfl

/-- Tasks with few days left. The last column of a task is the level of its derivation. -/
def urgentRule : Clause where
  head := ⟨⟨["urgent"]⟩, [.var "id"]⟩
  body :=
    [.positive ⟨["task"]⟩ [.var "id", .var "days", .var "@level_num_0"],
      .comparison .lt (.operator .sub [.var "days", .constant (.number 3)]) (.var "id")]

/-- The days left and their comparison with the number of the task mean the same over arguments and over rows, where
both variables are, and the level has no part in them. -/
theorem redirection_preserves_meaning_urgentRule (plan : Plan) :
    (Slots.ofClause urgentRule).names = ["id", "days"] ∧ (Slots.ofClause urgentRule).erased = ["@level_num_0"] ∧
      (∃ value written redirected last,
        outcome (lowerValue (Slots.ofClause urgentRule).sites
          (.operator .sub [.var "days", .constant (.number 3)])) .empty = (.ok value, written) ∧
        outcome ((Slots.ofClause urgentRule).redirectExpr value) written = (.ok redirected, last) ∧
        ∀ id days store symbols counter,
          ((evalExpr [id, days] redirected.tree).run.run ⟨store, symbols, counter, []⟩).1 =
            ((evalExpr [] value.tree).run.run ⟨store, symbols, counter, [(0, [id]), (1, [days])]⟩).1) ∧
      ∃ condition written redirected last,
        outcome (lowerConstraint plan (Slots.ofClause urgentRule).sites
          (.comparison .lt (.operator .sub [.var "days", .constant (.number 3)]) (.var "id"))) .empty =
            (.ok (some condition), written) ∧
        outcome ((Slots.ofClause urgentRule).redirectCond condition) written = (.ok redirected, last) ∧
        ∀ id days store symbols counter,
          ((evalCond [id, days] redirected.tree).run.run ⟨store, symbols, counter, []⟩).1 =
            ((evalCond [] condition.tree).run.run ⟨store, symbols, counter, [(0, [id]), (1, [days])]⟩).1 := by
  have names : (Slots.ofClause urgentRule).names = ["id", "days"] := by decide +kernel
  have erased : (Slots.ofClause urgentRule).erased = ["@level_num_0"] := by decide +kernel
  have walked : clauseVariables urgentRule = ["id", "days", "@level_num_0", "days", "id", "id"] := by decide
  have enough (id days : Int64) : [id, days].length = (Slots.ofClause urgentRule).size := by rw [Slots.size, names]; rfl
  have passedAs (id days : Int64) (store symbols counter) :
      PassedAs [id, days] ⟨store, symbols, counter, []⟩ ⟨store, symbols, counter, [(0, [id]), (1, [days])]⟩ := by
    refine ⟨⟨rfl, rfl, rfl, fun _ => False.elim⟩, fun slot value found => ?_⟩
    rcases slot with _ | _ | slot
    · cases found
      rfl
    · cases found
      rfl
    · cases found
  obtain ⟨each, eachLiteral⟩ := redirection_preserves_meaning plan urgentRule .empty
  refine ⟨names, erased, ?_, ?_⟩
  · obtain ⟨value, written, redirected, last, ran, ranOn, isRedirected⟩ :=
      each (.operator .sub [.var "days", .constant (.number 3)]) rfl (by rw [walked]; decide)
    have same := isRedirected.means (by rw [erased]; decide)
    exact ⟨value, written, redirected, last, ran, ranOn, fun id days store symbols counter =>
      (same _ _ _ _ (enough id days) (passedAs id days store symbols counter)).1⟩
  · rcases eachLiteral (.comparison .lt (.operator .sub [.var "days", .constant (.number 3)]) (.var "id")) rfl rfl
        (by rw [walked]; decide) with
      ⟨_, _, other, _⟩ | ⟨condition, written, redirected, last, ran, ranOn, isRedirected⟩
    · cases other
    · have same := isRedirected.means (by rw [erased]; decide)
      exact ⟨condition, written, redirected, last, ran, ranOn, fun id days store symbols counter =>
        (same _ _ _ _ (enough id days) (passedAs id days store symbols counter)).1⟩

end DatalogRam.Lowering
