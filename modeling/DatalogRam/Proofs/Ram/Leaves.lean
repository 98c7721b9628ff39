import Mathlib.Data.List.Forall2
import DatalogRam.Ram.Replace

/-!
# Leaves of expressions

An expression applies operators to leaves: constants, columns of rows, arguments, wildcards and counters. Its leaves
tell which rows it reads, and whether it has a value wherever its operators do. Replacing nodes by leaves changes no
leaf but those that are replaced.
-/

namespace DatalogRam.Ram

mutual

/-- The leaves of an expression, from left to right. -/
def Expr.leaves : Expr → List Expr
  | .operator _ args => Expr.leavesOfAll args
  | .external _ args => Expr.leavesOfAll args
  | .pack args => Expr.leavesOfAll args
  | .signed value => [.signed value]
  | .unsigned value => [.unsigned value]
  | .float value => [.float value]
  | .element tuple column => [.element tuple column]
  | .argument index => [.argument index]
  | .undefined => [.undefined]
  | .autoIncrement => [.autoIncrement]

def Expr.leavesOfAll : List Expr → List Expr
  | [] => []
  | expr :: exprs => expr.leaves ++ Expr.leavesOfAll exprs

end

theorem Expr.mem_leavesOfAll {exprs : List Expr} {leaf : Expr} :
    leaf ∈ Expr.leavesOfAll exprs ↔ ∃ expr ∈ exprs, leaf ∈ expr.leaves := by
  induction exprs with
  | nil => simp [Expr.leavesOfAll]
  | cons expr exprs ih => simp [Expr.leavesOfAll, ih]

/-- No wildcard is in the expression. -/
def Expr.IsDefined (expr : Expr) : Prop :=
  ∀ leaf ∈ expr.leaves, leaf.isUndefined = false

instance (expr : Expr) : Decidable expr.IsDefined :=
  inferInstanceAs (Decidable (∀ leaf ∈ expr.leaves, leaf.isUndefined = false))

/-! ## Replacing -/

section Replace

variable {ε α β : Type} {rule : ExprNode Expr → Except ε (Option (ExprNode Expr))}

theorem of_bind_eq_ok {first : Except ε α} {next : α → Except ε β} {result : β}
    (ran : first >>= next = .ok result) : ∃ middle, first = .ok middle ∧ next middle = .ok result := by
  cases first with
  | error failure => cases ran
  | ok middle => exact ⟨middle, rfl, ran⟩

theorem eq_ok_of_toOption {result : Except ε α} {value : α} (found : result.toOption = some value) :
    result = .ok value := by
  cases result with
  | ok other => exact congrArg Except.ok (Option.some.inj found)
  | error error => cases found

/-- A leaf after replacement is one that the rule kept, or is in an answer of the rule. -/
def LeftBy (rule : ExprNode Expr → Except ε (Option (ExprNode Expr))) (before : List Expr) (leaf : Expr) : Prop :=
  (leaf ∈ before ∧ rule leaf.toNode = .ok none) ∨
    ∃ node replacement, rule node = .ok (some replacement) ∧ leaf ∈ (Expr.ofNode replacement).leaves

theorem LeftBy.mono {before more : List Expr} {leaf : Expr} (left : LeftBy rule before leaf) (subset : before ⊆ more) :
    LeftBy rule more leaf :=
  left.imp_left fun kept => ⟨subset kept.1, kept.2⟩

/-- What a step of the replacement gives is the answer of the rule, or what becomes of the children. -/
theorem leftBy_of_replaced {node : ExprNode Expr} {rest : Except ε Expr} {result : Expr} {before : List Expr}
    (replaced : (rule node >>= fun answer =>
      match answer with
      | some replacement => pure (.ofNode replacement)
      | none => rest) = .ok result)
    (children : rule node = .ok none → rest = .ok result → ∀ leaf ∈ result.leaves, LeftBy rule before leaf) :
    ∀ leaf ∈ result.leaves, LeftBy rule before leaf := by
  obtain ⟨found, answer, finished⟩ := of_bind_eq_ok replaced
  cases found with
  | some replacement =>
      cases finished
      exact fun leaf member => .inr ⟨node, replacement, answer, member⟩
  | none => exact children answer finished

theorem Expr.replaceAll_cons_error {expr : Expr} {error : ε} (exprs : List Expr)
    (failed : expr.replace rule = .error error) :
    Expr.replaceAll rule (expr :: exprs) = .error error := by
  rw [Expr.replaceAll, failed]
  rfl

theorem Expr.replaceAll_cons_ok {expr changed : Expr} (exprs : List Expr) (ran : expr.replace rule = .ok changed) :
    Expr.replaceAll rule (expr :: exprs) = (Expr.replaceAll rule exprs).map (changed :: ·) := by
  rw [Expr.replaceAll, ran]
  change (Expr.replaceAll rule exprs >>= _) = _
  cases Expr.replaceAll rule exprs <;> rfl

theorem Expr.replaceAll_append (left right : List Expr) :
    Expr.replaceAll rule (left ++ right) =
      (Expr.replaceAll rule left >>= fun first =>
        (Expr.replaceAll rule right).map fun second => first ++ second) := by
  induction left with
  | nil => cases ran : Expr.replaceAll rule right <;> simp [Expr.replaceAll, ran] <;> rfl
  | cons expr left ih =>
      rw [List.cons_append]
      cases ran : expr.replace rule with
      | error error => rw [Expr.replaceAll_cons_error _ ran, Expr.replaceAll_cons_error _ ran]; rfl
      | ok changed =>
          rw [Expr.replaceAll_cons_ok _ ran, Expr.replaceAll_cons_ok _ ran, ih]
          cases Expr.replaceAll rule left with
          | error error => rfl
          | ok first => cases Expr.replaceAll rule right <;> rfl

/-- A list is replaced by replacing its first element and then the others. -/
theorem Expr.replaceAll_cons_eq_ok {expr : Expr} {exprs results : List Expr}
    (replaced : Expr.replaceAll rule (expr :: exprs) = .ok results) :
    ∃ first others, expr.replace rule = .ok first ∧ Expr.replaceAll rule exprs = .ok others ∧
      results = first :: others := by
  rw [Expr.replaceAll] at replaced
  obtain ⟨first, isFirst, finished⟩ := of_bind_eq_ok replaced
  obtain ⟨others, areOthers, same⟩ := of_bind_eq_ok finished
  cases same
  exact ⟨first, others, isFirst, areOthers, rfl⟩

mutual

theorem Expr.leaves_replace : ∀ (expr : Expr) {result : Expr}, expr.replace rule = .ok result →
    ∀ leaf ∈ result.leaves, LeftBy rule expr.leaves leaf
  | .operator op args, result, replaced => leftBy_of_replaced replaced fun _ built => by
      obtain ⟨exprs, areExprs, same⟩ := of_bind_eq_ok built
      cases same
      exact Expr.leaves_replaceAll args areExprs
  | .external name args, result, replaced => leftBy_of_replaced replaced fun _ built => by
      obtain ⟨exprs, areExprs, same⟩ := of_bind_eq_ok built
      cases same
      exact Expr.leaves_replaceAll args areExprs
  | .pack args, result, replaced => leftBy_of_replaced replaced fun _ built => by
      obtain ⟨exprs, areExprs, same⟩ := of_bind_eq_ok built
      cases same
      exact Expr.leaves_replaceAll args areExprs
  | .signed _, _, replaced | .unsigned _, _, replaced | .float _, _, replaced | .element _ _, _, replaced
  | .argument _, _, replaced | .undefined, _, replaced | .autoIncrement, _, replaced =>
      leftBy_of_replaced replaced fun answer kept leaf member => by
        cases kept
        obtain rfl := List.mem_singleton.1 member
        exact .inl ⟨member, answer⟩

theorem Expr.leaves_replaceAll : ∀ (exprs : List Expr) {results : List Expr},
    Expr.replaceAll rule exprs = .ok results → ∀ leaf ∈ Expr.leavesOfAll results, LeftBy rule (Expr.leavesOfAll exprs) leaf
  | [], _, replaced => by
      cases replaced
      exact fun _ member => absurd member List.not_mem_nil
  | expr :: exprs, results, replaced => by
      obtain ⟨first, others, isFirst, areOthers, rfl⟩ := Expr.replaceAll_cons_eq_ok replaced
      intro leaf member
      rcases List.mem_append.1 member with inFirst | inOthers
      · exact (Expr.leaves_replace expr isFirst leaf inFirst).mono (List.subset_append_left _ _)
      · exact (Expr.leaves_replaceAll exprs areOthers leaf inOthers).mono (List.subset_append_right _ _)

end

/-- Replacement goes through a list element by element. -/
theorem Expr.forall₂_of_replaceAll {exprs results : List Expr} (replaced : Expr.replaceAll rule exprs = .ok results) :
    List.Forall₂ (fun expr result => expr.replace rule = .ok result) exprs results := by
  induction exprs generalizing results with
  | nil =>
      cases replaced
      exact .nil
  | cons expr exprs ih =>
      obtain ⟨first, others, isFirst, areOthers, rfl⟩ := Expr.replaceAll_cons_eq_ok replaced
      exact .cons isFirst (ih areOthers)

end Replace

end DatalogRam.Ram
