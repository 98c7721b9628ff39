import DatalogRam.Proofs.Lowering.QueryCode
import DatalogRam.Proofs.Lowering.ValueReads
import DatalogRam.Proofs.Ram.Scope

/-!
# Reads after redirection

Redirecting code over slots replaces every read of a row by an argument of the subroutine, or by a wildcard if the
variable is erased. What is left reads no row, and without erased variables it has no wildcard that was not there
before.
-/

namespace DatalogRam.Lowering

open Ram

variable {ordinal : String → Int64} {slots : Slots}

/-- Redirection answers with arguments, and with wildcards for erased variables. -/
theorem redirect_eq_some {ρ : Type} {node replacement : ExprNode ρ}
    (answer : slots.redirect node = .ok (some replacement)) :
    (∃ index, replacement = .argument index) ∨ replacement = .undefined ∧ slots.erased ≠ [] := by
  cases node with
  | element tuple column =>
      rw [Slots.redirect] at answer
      split at answer
      · cases answer
        exact .inl ⟨tuple, rfl⟩
      · split at answer
        · next inside =>
            cases answer
            refine .inr ⟨rfl, fun none => ?_⟩
            rw [none] at inside
            cases inside
        · cases answer
  | _ => cases answer

/-- Redirection replaces every read of a row, and leaves none. -/
theorem takesReads_redirect (slots : Slots) : @TakesReads LoweringError slots.redirect where
  reads tuple column := by
    rw [Slots.redirect]
    split
    · exact fun same => nomatch same
    · split <;> exact fun same => nomatch same
  replacements node replacement answer := by
    rcases redirect_eq_some answer with ⟨index, rfl⟩ | ⟨rfl, _⟩ <;> rfl

/-- What is wanted for an argument of the head reads no row. -/
theorem tuples_of_wantedCode {slots : Slots} {arg : Argument} {wanted : Expr}
    (code : wantedCode ordinal slots arg = some (some wanted)) : wanted.tuples = [] := by
  unfold wantedCode at code
  split at code
  · obtain ⟨slot, _, same⟩ := Option.map_eq_some_iff.1 code
    cases same
    rfl
  · cases code
  · cases code
  · split at code
    · obtain ⟨_, redirected, same⟩ := Option.map_eq_some_iff.1 code
      cases same
      obtain ⟨value, _, isReplaced⟩ := Option.bind_eq_some_iff.1 redirected
      exact Expr.tuples_replace (takesReads_redirect slots) value (eq_ok_of_toOption isReplaced)
    · cases code

/-- Redirected code reads no columns at all. -/
theorem reads_of_tuples_eq_nil {rows : List Atom} {auxiliary : Nat} {expr : Expr} (none : expr.tuples = []) :
    ReadsColumns rows auxiliary expr := by
  apply reads_of_no_elements
  intro tuple column member
  have reads := (Expr.mem_tuples expr).2 ⟨column, member⟩
  rw [none] at reads
  cases reads

/-- Where no variable is erased, redirection brings no wildcard. -/
theorem isDefined_of_redirected (noErased : slots.erased = []) {expr redirected : Expr}
    (replaced : expr.replace slots.redirect = .ok redirected) (defined : expr.IsDefined) : redirected.IsDefined := by
  intro leaf member
  rcases Expr.leaves_replace expr replaced leaf member with ⟨kept, _⟩ | ⟨node, replacement, answer, isLeaf⟩
  · exact defined leaf kept
  · rcases redirect_eq_some answer with ⟨index, rfl⟩ | ⟨_, erased⟩
    · rw [List.mem_singleton.1 isLeaf]
      rfl
    · exact absurd noErased erased

theorem asked_of_redirected (noErased : slots.erased = []) {expr redirected : Expr}
    (replaced : expr.replace slots.redirect = .ok redirected) (asked : Asked expr) : Asked redirected := by
  rcases asked with isUndefined | defined
  · cases expr <;> cases isUndefined
    cases replaced
    exact .inl rfl
  · exact .inr (isDefined_of_redirected noErased replaced defined)

/-- What is wanted for a definite argument of the head has no wildcard. -/
theorem isDefined_of_wantedCode (noErased : slots.erased = []) {arg : Argument} {wanted : Expr}
    (definite : arg.isDefinite = true) (code : wantedCode ordinal slots arg = some (some wanted)) :
    wanted.IsDefined := by
  unfold wantedCode at code
  split at code
  · obtain ⟨slot, _, same⟩ := Option.map_eq_some_iff.1 code
    cases same
    simp [Expr.IsDefined, Expr.leaves, Expr.isUndefined]
  · cases code
  · cases code
  · split at code
    · obtain ⟨_, redirected, same⟩ := Option.map_eq_some_iff.1 code
      cases same
      obtain ⟨value, isValue, isReplaced⟩ := Option.bind_eq_some_iff.1 redirected
      exact isDefined_of_redirected noErased (eq_ok_of_toOption isReplaced) (isDefined_of_valueCode isValue definite)
    · cases code

end DatalogRam.Lowering
