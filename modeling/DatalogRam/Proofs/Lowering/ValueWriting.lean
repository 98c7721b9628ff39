import DatalogRam.Proofs.Lowering.QueryCode
import DatalogRam.Proofs.Lowering.Writing

/-!
# The lowering of values writes their code

Arguments become expressions, and negations and constraints become conditions, as
`DatalogRam.Proofs.Lowering.QueryCode` names them.
-/

namespace DatalogRam.Lowering

open Ram

variable {ordinal : String → Int64} {plan : Plan}

theorem writes_expr (node : ExprNode (Placed Expr)) :
    Writes ordinal Placed.tree (inArena (placeExpr node)) (some (.ofNode (node.map Placed.tree))) :=
  Writes.inArena (Builds.expr node)

theorem writes_constant (value : Constant) :
    Writes ordinal Placed.tree (lowerConstant value) (some (constantCode ordinal value)) := by
  cases value with
  | number value => exact writes_expr _
  | unsigned value => exact writes_expr _
  | float value => exact writes_expr _
  | string text =>
      change Writes ordinal Placed.tree _ (some (ordinal text) >>= fun word => some (Expr.signed word))
      refine (Writes.encodeSymbol text).bind ?_
      rintro word _ rfl
      exact writes_expr (.signed word)
  | nil => exact writes_expr _

theorem writes_site (site : Site) :
    Writes ordinal Placed.tree (inArena (readSite site)) (some (siteCode site)) :=
  writes_expr _

/-- A read at a site that may be missing. -/
theorem writes_optionalSite (found : Option Site) (error : LoweringError) :
    Writes ordinal Placed.tree
      (match found with
        | some site => inArena (readSite site)
        | none => throw error)
      (found.map siteCode) := by
  cases found with
  | none => exact Writes.throw error
  | some site => exact writes_site site

mutual

theorem writes_value (sites : Sites) :
    ∀ arg : Argument, Writes ordinal Placed.tree (lowerValue sites arg) (valueCode ordinal sites arg)
  | .var name => by
      rw [lowerValue, valueCode]
      exact writes_optionalSite _ _
  | .unnamed => by
      rw [lowerValue, valueCode]
      exact writes_expr _
  | .constant value => by
      rw [lowerValue, valueCode]
      exact writes_constant value
  | .operator op args => by
      rw [lowerValue, valueCode, Option.map_eq_bind]
      refine (writes_values sites args).bind ?_
      rintro values _ rfl
      exact writes_expr (.operator op values)
  | .external name args => by
      rw [lowerValue, valueCode, Option.map_eq_bind]
      refine (writes_values sites args).bind ?_
      rintro values _ rfl
      exact writes_expr (.external name values)
  | .aggregate function target body => by
      rw [lowerValue, valueCode]
      exact writes_optionalSite _ _
  | .record args => by
      rw [lowerValue, valueCode, Option.map_eq_bind]
      refine (writes_values sites args).bind ?_
      rintro values _ rfl
      exact writes_expr (.pack values)
  | .counter => by
      rw [lowerValue, valueCode]
      exact writes_expr _

theorem writes_values (sites : Sites) :
    ∀ args : List Argument,
      Writes ordinal (List.map Placed.tree) (lowerValues sites args) (valueCodes ordinal sites args)
  | [] => by
      rw [lowerValues, valueCodes]
      exact Writes.pure []
  | arg :: args => by
      rw [lowerValues, valueCodes]
      refine (writes_value sites arg).bind ?_
      rintro value _ rfl
      refine (writes_values sites args).bind ?_
      rintro values _ rfl
      exact Writes.pure (value :: values)

end

theorem writes_requireRelation (name : Name) :
    Writes ordinal id (liftExcept (plan.requireRelation name)) (plan.program.relation? name) := by
  have lifted : Writes ordinal id (liftExcept (plan.requireRelation name)) _ := Writes.lift _
  rw [Plan.requireRelation] at lifted ⊢
  cases found : plan.program.relation? name with
  | none => rwa [found] at lifted
  | some relation => rwa [found] at lifted

theorem builds_wildcards (count : Nat) :
    Builds (List.map Placed.tree) (wildcards count) (List.replicate count .undefined) := by
  induction count with
  | zero => exact Builds.pure []
  | succ count ih =>
      refine (Builds.expr .undefined).bind fun first isFirst => ih.bind fun rest isRest => ?_
      rw [List.replicate_succ, ← isRest]
      have head : Expr.undefined = first.tree := isFirst.symm
      rw [head]
      exact Builds.pure (first :: rest)

theorem builds_existenceCheck (relation : String) (values : List (Placed Expr)) (auxiliary : Nat) :
    Builds Placed.tree (existenceCheck relation values auxiliary)
      (existence relation (values.map Placed.tree) auxiliary) := by
  refine (builds_wildcards auxiliary).bind fun padding isPadding => ?_
  rw [existence, ← isPadding, ← List.map_append]
  exact Builds.cond (.holds relation (values ++ padding))

theorem writes_constraint (sites : Sites) (literal : Literal) :
    Writes ordinal (Option.map Placed.tree) (lowerConstraint plan sites literal)
      (constraintCode ordinal plan sites literal) := by
  cases literal with
  | positive relation args => exact Writes.pure none
  | negative relation args =>
      refine (writes_requireRelation relation).bind ?_
      rintro declared _ rfl
      refine (writes_values sites args).bind ?_
      rintro values _ rfl
      refine Writes.build (builds_existenceCheck relation.text values plan.auxiliary) fun check isCheck => ?_
      rw [← isCheck]
      exact Writes.buildSome (Builds.cond (.not check))
  | comparison op left right =>
      refine (writes_value sites left).bind ?_
      rintro left _ rfl
      refine (writes_value sites right).bind ?_
      rintro right _ rfl
      exact Writes.buildSome (Builds.cond (.compare op left right))
  | truth value =>
      cases value with
      | true => exact Writes.buildSome (Builds.cond .true)
      | false => exact Writes.buildSome (Builds.cond .false)

end DatalogRam.Lowering
