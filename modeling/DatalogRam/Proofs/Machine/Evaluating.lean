import DatalogRam.Proofs.Machine.Run
import DatalogRam.Proofs.Ram.Symbols

/-!
# What evaluation changes

Evaluating expressions and conditions leaves the store and the bound rows as they are. It may intern texts and move
the counter. An expression that does not count has the same value when it is evaluated again, since texts keep their
ordinals.
-/

namespace DatalogRam

open Ram Machine

namespace Ram

mutual

/-- Whether an expression moves the counter. -/
def Expr.counts : Expr → Bool
  | .autoIncrement => true
  | .operator _ args => Expr.anyCounts args
  | .external _ args => Expr.anyCounts args
  | .pack args => Expr.anyCounts args
  | .signed _ | .unsigned _ | .float _ | .element .. | .argument _ | .undefined => false

def Expr.anyCounts : List Expr → Bool
  | [] => false
  | expr :: exprs => expr.counts || Expr.anyCounts exprs

end

end Ram

namespace Machine

/-- What evaluation keeps. -/
structure Evaluates (state final : State) : Prop where
  store : final.store = state.store
  bindings : final.bindings = state.bindings
  symbols : final.symbols.Extends state.symbols

variable {state middle final other last : State} {args : Row}

theorem Evaluates.refl (state : State) : Evaluates state state :=
  ⟨rfl, rfl, Symbols.Extends.refl _⟩

theorem Evaluates.trans (first : Evaluates state middle) (second : Evaluates middle final) : Evaluates state final :=
  ⟨second.store.trans first.store, second.bindings.trans first.bindings, second.symbols.trans first.symbols⟩

/-! ## Operators -/

theorem joinedTexts_of_extends {symbols later : Symbols} (extends' : later.Extends symbols) {ordinals : List Int64}
    {text : String} (joined : joinedTexts symbols ordinals = .ok text) : joinedTexts later ordinals = .ok text := by
  induction ordinals generalizing text with
  | nil => exact joined
  | cons ordinal rest ih =>
      rw [joinedTexts] at joined ⊢
      cases decoded : symbols.decode? ordinal with
      | none =>
          rw [decoded] at joined
          cases joined
      | some first =>
          rw [decoded] at joined
          rw [Symbols.decode?_of_extends extends' decoded]
          cases others : joinedTexts symbols rest with
          | error fault =>
              rw [others] at joined
              cases joined
          | ok texts =>
              rw [others] at joined
              rw [ih others]
              exact joined

/-- Symbols that an operator may leave behind, if later ones give the same result. -/
structure Repeats (symbols after : Symbols) (op : Operator) (values : List Int64) (result : Int64) : Prop where
  grows : after.Extends symbols
  again : ∀ later : Symbols, later.Extends after → applyOperator later op values = .ok (result, later)

/-- An operator that does not look at symbols keeps them. -/
theorem repeats_of_keep {symbols after : Symbols} {op : Operator} {values : List Int64} {result : Int64}
    {computed : Except Fault Int64} (same : ∀ symbols, applyOperator symbols op values =
      computed.map fun value => (value, symbols))
    (applied : applyOperator symbols op values = .ok (result, after)) : Repeats symbols after op values result := by
  rw [same] at applied
  cases computed with
  | error fault => cases applied
  | ok value =>
      cases applied
      exact ⟨Symbols.Extends.refl _, fun later _ => same later⟩

theorem repeats_of_applied {symbols after : Symbols} {op : Operator} {values : List Int64} {result : Int64}
    (applied : applyOperator symbols op values = .ok (result, after)) : Repeats symbols after op values result := by
  cases op with
  | cat =>
      simp only [applyOperator] at applied
      cases joined : joinedTexts symbols values with
      | error fault =>
          rw [joined] at applied
          cases applied
      | ok text =>
          rw [joined] at applied
          have encoded : symbols.encode text = (result, after) := Except.ok.inj applied
          have grows : (symbols.encode text).2.Extends symbols := symbols.encode_extends text
          rw [encoded] at grows
          refine ⟨grows, fun later extends' => ?_⟩
          have again : later.Extends (symbols.encode text).2 := by rwa [encoded]
          simp only [applyOperator, joinedTexts_of_extends (extends'.trans grows) joined]
          change Except.ok (later.encode text) = _
          rw [Symbols.encode_of_extends again, encoded]
  | strlen =>
      simp only [applyOperator] at applied
      split at applied
      · cases applied
      · next ordinal _ =>
          split at applied
          · next text decoded =>
              cases applied
              refine ⟨Symbols.Extends.refl _, fun later extends' => ?_⟩
              simp only [applyOperator, Symbols.decode?_of_extends extends' decoded]
          · cases applied
  | add | sub | mul | div | mod | neg | max | min => exact repeats_of_keep (fun _ => rfl) applied

theorem Returns.of_runOperator {op : Operator} {values : List Int64} {value : Int64}
    (returns : Returns (Machine.runOperator op values) state value final) :
    ∃ after, applyOperator state.symbols op values = .ok (value, after) ∧ final = { state with symbols := after } := by
  rw [Returns, Returns.run_runOperator] at returns
  cases applied : applyOperator state.symbols op values with
  | error fault =>
      rw [applied] at returns
      cases returns
  | ok pair =>
      rw [applied] at returns
      cases returns
      exact ⟨_, rfl, rfl⟩

theorem Returns.of_elementOf {tuple column : Nat} {value : Int64}
    (returns : Returns (Machine.elementOf tuple column) state value final) :
    final = state ∧ ∃ row, state.bindings.lookup tuple = some row ∧ row[column]? = some value := by
  rw [Returns, Returns.run_elementOf] at returns
  split at returns
  · cases returns
  · next row bound =>
      split at returns
      · cases returns
      · next inRow =>
          cases returns
          exact ⟨rfl, row, bound, inRow⟩

/-! ## Expressions -/

mutual

theorem evaluates_expr : ∀ (expr : Expr) {state final : State} {value : Int64},
    Returns (evalExpr args expr) state value final → Evaluates state final
  | .signed _, _, _, _, returns | .unsigned _, _, _, _, returns | .float _, _, _, _, returns => by
      rw [evalExpr] at returns
      rw [returns.eq_of_pure.2]
      exact .refl _
  | .element tuple column, _, _, _, returns => by
      rw [evalExpr] at returns
      rw [returns.of_elementOf.1]
      exact .refl _
  | .argument index, _, _, _, returns => by
      rw [evalExpr] at returns
      split at returns
      · exact absurd returns Returns.not_throw
      · rw [returns.eq_of_pure.2]
        exact .refl _
  | .undefined, _, _, _, returns | .external .., _, _, _, returns | .pack _, _, _, _, returns => by
      rw [evalExpr] at returns
      exact absurd returns Returns.not_throw
  | .autoIncrement, _, _, _, returns => by
      rw [evalExpr] at returns
      cases returns
      exact ⟨rfl, rfl, Symbols.Extends.refl _⟩
  | .operator op operands, _, _, _, returns => by
      rw [evalExpr] at returns
      obtain ⟨values, middle, areValues, applied⟩ := returns.of_bind
      obtain ⟨after, isResult, rfl⟩ := applied.of_runOperator
      exact (evaluates_exprs operands areValues).trans ⟨rfl, rfl, (repeats_of_applied isResult).grows⟩

/-- Evaluating expressions keeps the store and the bound rows, and interns texts at most. -/
theorem evaluates_exprs : ∀ (exprs : List Expr) {state final : State} {values : List Int64},
    Returns (evalExprs args exprs) state values final → Evaluates state final
  | [], _, _, _, returns => by
      rw [evalExprs] at returns
      rw [returns.eq_of_pure.2]
      exact .refl _
  | expr :: exprs, _, _, _, returns => by
      rw [evalExprs] at returns
      obtain ⟨value, middle, isValue, returns⟩ := returns.of_bind
      obtain ⟨values, last, areValues, returns⟩ := returns.of_bind
      rw [returns.eq_of_pure.2]
      exact (evaluates_expr expr isValue).trans (evaluates_exprs exprs areValues)

end

mutual

/-- An expression that does not count has its value again, wherever all its texts are known. -/
theorem returns_again : ∀ (expr : Expr) {state final : State} {value : Int64}, expr.counts = false →
    Returns (evalExpr args expr) state value final → ∀ {other : State}, other.bindings = state.bindings →
      other.symbols.Extends final.symbols → Returns (evalExpr args expr) other value other
  | .signed _, _, _, _, _, returns, _, _, _ | .unsigned _, _, _, _, _, returns, _, _, _
  | .float _, _, _, _, _, returns, _, _, _ => by
      rw [evalExpr] at returns ⊢
      rw [returns.eq_of_pure.1]
      exact .pure _ _
  | .element tuple column, _, _, _, _, returns, _, same, _ => by
      rw [evalExpr] at returns ⊢
      obtain ⟨_, row, bound, inRow⟩ := returns.of_elementOf
      exact .elementOf (same ▸ bound) inRow
  | .argument index, _, _, _, _, returns, _, _, _ => by
      rw [evalExpr] at returns ⊢
      split at returns
      · exact absurd returns Returns.not_throw
      · rw [returns.eq_of_pure.1]
        exact .pure _ _
  | .undefined, _, _, _, _, returns, _, _, _ | .external .., _, _, _, _, returns, _, _, _
  | .pack _, _, _, _, _, returns, _, _, _ => by
      rw [evalExpr] at returns
      exact absurd returns Returns.not_throw
  | .autoIncrement, _, _, _, counts, _, _, _, _ => by cases counts
  | .operator op operands, _, _, _, counts, returns, other, same, known => by
      rw [evalExpr] at returns ⊢
      obtain ⟨values, middle, areValues, applied⟩ := returns.of_bind
      obtain ⟨after, isResult, rfl⟩ := applied.of_runOperator
      have repeats := repeats_of_applied isResult
      refine (returnsAll_again operands counts areValues same (known.trans repeats.grows)).bind ?_
      exact .runOperator (repeats.again other.symbols known)

theorem returnsAll_again : ∀ (exprs : List Expr) {state final : State} {values : List Int64},
    Expr.anyCounts exprs = false → Returns (evalExprs args exprs) state values final →
      ∀ {other : State}, other.bindings = state.bindings → other.symbols.Extends final.symbols →
        Returns (evalExprs args exprs) other values other
  | [], _, _, _, _, returns, _, _, _ => by
      rw [evalExprs] at returns ⊢
      rw [returns.eq_of_pure.1]
      exact .pure _ _
  | expr :: exprs, _, _, _, counts, returns, other, same, known => by
      rw [Expr.anyCounts, Bool.or_eq_false_iff] at counts
      rw [evalExprs] at returns ⊢
      obtain ⟨value, middle, isValue, returns⟩ := returns.of_bind
      obtain ⟨values, last, areValues, returns⟩ := returns.of_bind
      obtain ⟨rfl, rfl⟩ := returns.eq_of_pure
      have grows := evaluates_exprs exprs areValues
      have sameBindings := same.trans (evaluates_expr expr isValue).bindings.symm
      exact (returns_again expr counts.1 isValue same (known.trans grows.symbols)).bind
        ((returnsAll_again exprs counts.2 areValues sameBindings known).bind (.pure _ _))

end

theorem length_of_evalExprs {exprs : List Expr} {state final : State} {values : Row}
    (returns : Returns (evalExprs args exprs) state values final) : values.length = exprs.length := by
  induction exprs generalizing state final values with
  | nil =>
      rw [evalExprs] at returns
      rw [returns.eq_of_pure.1]
      rfl
  | cons expr exprs ih =>
      rw [evalExprs] at returns
      obtain ⟨value, middle, _, returns⟩ := returns.of_bind
      obtain ⟨others, last, areOthers, done⟩ := returns.of_bind
      rw [done.eq_of_pure.1, List.length_cons, List.length_cons, ih areOthers]

theorem Returns.of_evalExprs_append {first second : List Expr} {state final : State} {values : Row}
    (returns : Returns (evalExprs args (first ++ second)) state values final) :
    ∃ front middle back, values = front ++ back ∧ Returns (evalExprs args first) state front middle ∧
      Returns (evalExprs args second) middle back final := by
  induction first generalizing state values with
  | nil => exact ⟨[], state, values, rfl, by rw [evalExprs]; exact .pure _ _, returns⟩
  | cons expr rest ih =>
      rw [List.cons_append, evalExprs] at returns
      obtain ⟨value, between, isValue, returns⟩ := returns.of_bind
      obtain ⟨others, last, areOthers, done⟩ := returns.of_bind
      obtain ⟨rfl, rfl⟩ := done.eq_of_pure
      obtain ⟨front, middle, back, rfl, isFront, isBack⟩ := ih areOthers
      refine ⟨value :: front, middle, back, rfl, ?_, isBack⟩
      rw [evalExprs]
      exact isValue.bind (isFront.bind (.pure _ _))

/-! ## Patterns and conditions -/

theorem Returns.of_map {α β : Type} {code : Exec α} {change : α → β} {b : β}
    (returns : Returns (change <$> code) state b final) : ∃ a, Returns code state a final ∧ b = change a := by
  rw [← bind_pure_comp] at returns
  obtain ⟨a, middle, ran, done⟩ := returns.of_bind
  obtain ⟨rfl, rfl⟩ := done.eq_of_pure
  exact ⟨a, ran, rfl⟩

theorem Returns.map {α β : Type} {code : Exec α} {a : α} (returns : Returns code state a final) (change : α → β) :
    Returns (change <$> code) state (change a) final := by
  rw [← bind_pure_comp]
  exact returns.bind (.pure _ _)

/-- What a place of a pattern asks for is nothing, or the value of the expression there. -/
theorem Returns.of_evalPattern_cons {expr : Expr} {exprs : List Expr} {pattern : List (Option Int64)}
    (returns : Returns (evalPattern args (expr :: exprs)) state pattern final) :
    ∃ wanted middle rest, pattern = wanted :: rest ∧ Returns (evalPattern args exprs) middle rest final ∧
      if expr.isUndefined then wanted = none ∧ middle = state
      else ∃ value, wanted = some value ∧ Returns (evalExpr args expr) state value middle := by
  rw [evalPattern] at returns
  split at returns
  · next isUndefined =>
      obtain ⟨wanted, middle, first, returns⟩ := returns.of_bind
      obtain ⟨rest, last, others, done⟩ := returns.of_bind
      obtain ⟨rfl, rfl⟩ := first.eq_of_pure
      obtain ⟨rfl, rfl⟩ := done.eq_of_pure
      exact ⟨none, middle, rest, rfl, others, by rw [if_pos isUndefined]; exact ⟨rfl, rfl⟩⟩
  · next notUndefined =>
      obtain ⟨wanted, middle, first, returns⟩ := returns.of_bind
      obtain ⟨rest, last, others, done⟩ := returns.of_bind
      obtain ⟨value, isValue, rfl⟩ := first.of_map
      obtain ⟨rfl, rfl⟩ := done.eq_of_pure
      exact ⟨some value, middle, rest, rfl, others, by rw [if_neg notUndefined]; exact ⟨value, rfl, isValue⟩⟩

theorem evaluates_pattern {exprs : List Expr} {pattern : List (Option Int64)}
    (returns : Returns (evalPattern args exprs) state pattern final) : Evaluates state final := by
  induction exprs generalizing state pattern with
  | nil =>
      rw [evalPattern] at returns
      rw [returns.eq_of_pure.2]
      exact .refl _
  | cons expr exprs ih =>
      obtain ⟨wanted, middle, rest, _, others, first⟩ := returns.of_evalPattern_cons
      refine Evaluates.trans ?_ (ih others)
      split at first
      · rw [first.2]
        exact .refl _
      · obtain ⟨value, _, isValue⟩ := first
        exact evaluates_expr expr isValue

theorem evaluates_cond {condition : Cond} {answer : Bool}
    (returns : Returns (evalCond args condition) state answer final) :
    Evaluates state final := by
  induction condition generalizing state final answer with
  | true | false =>
      rw [evalCond] at returns
      rw [returns.eq_of_pure.2]
      exact .refl _
  | both left right leftKeeps rightKeeps =>
      rw [evalCond] at returns
      obtain ⟨first, middle, isFirst, returns⟩ := returns.of_bind
      refine (leftKeeps isFirst).trans ?_
      cases first with
      | true => exact rightKeeps returns
      | false =>
          rw [returns.eq_of_pure.2]
          exact .refl _
  | not condition keeps =>
      rw [evalCond] at returns
      obtain ⟨answer, middle, isAnswer, returns⟩ := returns.of_bind
      rw [returns.eq_of_pure.2]
      exact keeps isAnswer
  | compare op left right =>
      rw [evalCond] at returns
      obtain ⟨first, middle, isFirst, returns⟩ := returns.of_bind
      obtain ⟨second, last, isSecond, returns⟩ := returns.of_bind
      rw [returns.eq_of_pure.2]
      exact (evaluates_expr left isFirst).trans (evaluates_expr right isSecond)
  | holds relation values =>
      rw [evalCond] at returns
      obtain ⟨pattern, middle, isPattern, returns⟩ := returns.of_bind
      cases returns
      exact evaluates_pattern isPattern
  | isEmpty relation =>
      rw [evalCond] at returns
      cases returns
      exact .refl _

/-- An existence check asks for the values that the expressions have afterwards. -/
theorem pattern_eq_of_values {exprs : List Expr} {pattern : List (Option Int64)} {values : List Int64}
    (uncounted : Expr.anyCounts exprs = false) (returns : Returns (evalPattern args exprs) state pattern middle)
    (same : other.bindings = state.bindings) (known : other.symbols.Extends middle.symbols)
    (evaluated : Returns (evalExprs args exprs) other values last) : pattern = values.map some ∧ last = other := by
  induction exprs generalizing state pattern values with
  | nil =>
      rw [evalPattern] at returns
      rw [evalExprs] at evaluated
      obtain ⟨rfl, rfl⟩ := returns.eq_of_pure
      obtain ⟨rfl, rfl⟩ := evaluated.eq_of_pure
      exact ⟨rfl, rfl⟩
  | cons expr exprs ih =>
      rw [Expr.anyCounts, Bool.or_eq_false_iff] at uncounted
      obtain ⟨wanted, between, rest, rfl, others, first⟩ := returns.of_evalPattern_cons
      rw [evalExprs] at evaluated
      obtain ⟨value, next, isValue, evaluated⟩ := evaluated.of_bind
      obtain ⟨more, ended, areMore, done⟩ := evaluated.of_bind
      obtain ⟨rfl, rfl⟩ := done.eq_of_pure
      split at first
      · next isUndefined =>
          cases expr <;> cases isUndefined
          rw [evalExpr] at isValue
          exact absurd isValue Returns.not_throw
      · obtain ⟨asked, rfl, isAsked⟩ := first
        have grows := evaluates_pattern others
        have again := returns_again expr uncounted.1 isAsked same (known.trans grows.symbols)
        obtain ⟨rfl, rfl⟩ := again.unique isValue
        have sameBindings := same.trans (evaluates_expr expr isAsked).bindings.symm
        obtain ⟨rfl, rfl⟩ := ih uncounted.2 others sameBindings areMore
        exact ⟨rfl, rfl⟩

theorem Returns.of_evalPattern_append {first second : List Expr} {pattern : List (Option Int64)}
    (returns : Returns (evalPattern args (first ++ second)) state pattern final) :
    ∃ front middle back, pattern = front ++ back ∧ Returns (evalPattern args first) state front middle ∧
      Returns (evalPattern args second) middle back final := by
  induction first generalizing state pattern with
  | nil => exact ⟨[], state, pattern, rfl, by rw [evalPattern]; exact .pure _ _, returns⟩
  | cons expr rest ih =>
      obtain ⟨wanted, between, others, rfl, areOthers, head⟩ := Returns.of_evalPattern_cons returns
      obtain ⟨front, middle, back, rfl, isFront, isBack⟩ := ih areOthers
      refine ⟨wanted :: front, middle, back, rfl, ?_, isBack⟩
      rw [evalPattern]
      split at head
      · next isUndefined =>
          obtain ⟨rfl, rfl⟩ := head
          rw [if_pos isUndefined]
          exact (Returns.pure _ _).bind (isFront.bind (.pure _ _))
      · next notUndefined =>
          obtain ⟨value, rfl, isValue⟩ := head
          rw [if_neg notUndefined]
          exact (isValue.map some).bind (isFront.bind (.pure _ _))

end Machine

end DatalogRam
