import DatalogRam.Proofs.Ram.Building
import DatalogRam.Proofs.Ram.Leaves

/-!
# What code uses

Code names tables and evaluates expressions. `Op.uses` and `Stmt.uses` list these uses from the outside in, each with
the scans that it is nested in. Clearing, swapping and merging tables is not among them.
-/

namespace DatalogRam.Ram

/-- A use of a table or of values. -/
inductive Use where
  /-- An expression is compared or folded. -/
  | value (expr : Expr)
  | scan (relation : String)
  /-- The rows of a relation are aggregated. -/
  | fold (relation : String)
  | check (relation : String) (values : List Expr)
  | emptiness (relation : String)
  | insert (relation : String) (values : List Expr)
  | answer (values : List Expr)

namespace Use

/-- The relation that is named. -/
def relation? : Use → Option String
  | scan relation | fold relation | check relation _ | emptiness relation | insert relation _ => some relation
  | value _ | answer _ => none

/-- The values for the columns of the relation. -/
def row? : Use → Option (List Expr)
  | check _ values | insert _ values => some values
  | value _ | scan _ | fold _ | emptiness _ | answer _ => none

def exprs : Use → List Expr
  | value expr => [expr]
  | check _ values | insert _ values | answer values => values
  | scan _ | fold _ | emptiness _ => []

def isAnswer : Use → Bool
  | answer _ => true
  | _ => false

/-- Wildcards stand directly in existence checks, and nowhere else. -/
def AsksOnly : Use → Prop
  | check _ values => ∀ value ∈ values, value.isUndefined = true ∨ value.IsDefined
  | use => ∀ expr ∈ use.exprs, expr.IsDefined

end Use

/-- Scans around a use: the numbers of their rows and the relations that these are from. -/
abbrev Scans := List (Nat × String)

def Cond.uses : Cond → List Use
  | .true | .false => []
  | .both left right => left.uses ++ right.uses
  | .not condition => condition.uses
  | .compare _ left right => [.value left, .value right]
  | .holds relation values => [.check relation values]
  | .isEmpty relation => [.emptiness relation]

/-- The uses of an operation that is nested in scans. -/
def Op.uses (scans : Scans) : Op → List (Scans × Use)
  | .scan relation tuple nested => (scans, .scan relation) :: nested.uses ((tuple, relation) :: scans)
  | .filter condition nested => condition.uses.map (scans, ·) ++ nested.uses scans
  | .aggregate relation _ _ value condition nested =>
      (.fold relation :: (value.toList.map .value ++ condition.uses)).map (scans, ·) ++ nested.uses scans
  | .insert relation values => [(scans, .insert relation values)]
  | .answer values => [(scans, .answer values)]

mutual

def Stmt.uses : Stmt → List (Scans × Use)
  | .sequence statements => Stmt.usesOfAll statements
  | .query operation => operation.uses []
  | .loop body => body.uses
  | .exit condition => condition.uses.map ([], ·)
  | .debug _ statement => statement.uses
  | .clear _ | .swap .. | .merge .. => []

def Stmt.usesOfAll : List Stmt → List (Scans × Use)
  | [] => []
  | statement :: statements => statement.uses ++ Stmt.usesOfAll statements

end

theorem Stmt.mem_usesOfAll {statements : List Stmt} {entry : Scans × Use} :
    entry ∈ Stmt.usesOfAll statements ↔ ∃ statement ∈ statements, entry ∈ statement.uses := by
  induction statements with
  | nil => simp [Stmt.usesOfAll]
  | cons statement statements ih => simp [Stmt.usesOfAll, ih]

/-! ## Common uses -/

/-- The uses of a condition have something in common. -/
def Cond.Uses (holds : Use → Prop) (condition : Cond) : Prop :=
  ∀ use ∈ condition.uses, holds use

/-- The uses of a statement and the scans around them have something in common. -/
def Stmt.Uses (holds : Scans → Use → Prop) (statement : Stmt) : Prop :=
  ∀ entry ∈ statement.uses, holds entry.1 entry.2

/-- Nested in scans of some kind, an operation has only scans of that kind, and uses of some kind within them. -/
def Op.Uses (within : Scans → Prop) (holds : Use → Prop) (operation : Op) : Prop :=
  ∀ scans, within scans → ∀ entry ∈ operation.uses scans, within entry.1 ∧ holds entry.2

variable {within : Scans → Prop} {holds : Use → Prop} {operation : Op} {condition : Cond}

theorem Cond.Uses.allOf {conditions : List Cond} (each : ∀ condition ∈ conditions, condition.Uses holds) :
    (allOf conditions).Uses holds :=
  of_allOf (fun _ member => absurd member List.not_mem_nil)
    (fun _ _ left right use member => (List.mem_append.1 member).elim (left use) (right use)) each

theorem Cond.Uses.compare {op : Comparison} {left right : Expr} (leftHolds : holds (.value left))
    (rightHolds : holds (.value right)) : (Cond.compare op left right).Uses holds :=
  List.forall_mem_cons.2 ⟨leftHolds, List.forall_mem_singleton.2 rightHolds⟩

theorem Cond.Uses.check {relation : String} {values : List Expr} (isHeld : holds (.check relation values)) :
    (Cond.holds relation values).Uses holds :=
  List.forall_mem_singleton.2 isHeld

theorem Op.Uses.filter (checks : condition.Uses holds) (nested : operation.Uses within holds) :
    (Op.filter condition operation).Uses within holds := by
  intro scans isWithin entry member
  rcases List.mem_append.1 member with inCondition | inNested
  · obtain ⟨use, isUse, rfl⟩ := List.mem_map.1 inCondition
    exact ⟨isWithin, checks use isUse⟩
  · exact nested scans isWithin entry inNested

theorem Op.Uses.scan {relation : String} {tuple : Nat} (isScan : holds (.scan relation))
    (onward : ∀ scans, within scans → within ((tuple, relation) :: scans)) (nested : operation.Uses within holds) :
    (Op.scan relation tuple operation).Uses within holds := by
  intro scans isWithin entry member
  rcases List.mem_cons.1 member with rfl | inNested
  · exact ⟨isWithin, isScan⟩
  · exact nested _ (onward scans isWithin) entry inNested

theorem Op.Uses.aggregate {relation : String} {tuple : Nat} {function : Aggregation} {value : Option Expr}
    (isFold : holds (.fold relation)) (folds : ∀ expr, value = some expr → holds (.value expr))
    (checks : condition.Uses holds) (nested : operation.Uses within holds) :
    (Op.aggregate relation tuple function value condition operation).Uses within holds := by
  intro scans isWithin entry member
  rcases List.mem_append.1 member with isOwn | inNested
  · obtain ⟨use, isUse, rfl⟩ := List.mem_map.1 isOwn
    refine ⟨isWithin, ?_⟩
    rcases List.mem_cons.1 isUse with rfl | isUse
    · exact isFold
    · rcases List.mem_append.1 isUse with isValue | inCondition
      · obtain ⟨expr, isExpr, rfl⟩ := List.mem_map.1 isValue
        exact folds expr (Option.mem_toList.1 isExpr)
      · exact checks use inCondition
  · exact nested scans isWithin entry inNested

theorem Op.Uses.insert {relation : String} {values : List Expr} (isInsert : holds (.insert relation values)) :
    (Op.insert relation values).Uses within holds :=
  fun _ isWithin => List.forall_mem_singleton.2 ⟨isWithin, isInsert⟩

theorem Op.Uses.answer {values : List Expr} (isAnswer : holds (.answer values)) :
    (Op.answer values).Uses within holds :=
  fun _ isWithin => List.forall_mem_singleton.2 ⟨isWithin, isAnswer⟩

theorem Stmt.Uses.sequence {holds : Scans → Use → Prop} {statements : List Stmt}
    (each : ∀ statement ∈ statements, statement.Uses holds) : (Stmt.sequence statements).Uses holds := by
  intro entry member
  obtain ⟨statement, isStatement, isUse⟩ := Stmt.mem_usesOfAll.1 member
  exact each statement isStatement entry isUse

theorem Stmt.Uses.mono {holds weaker : Scans → Use → Prop} {statement : Stmt} (uses : statement.Uses holds)
    (implies : ∀ scans use, holds scans use → weaker scans use) : statement.Uses weaker :=
  fun entry member => implies _ _ (uses entry member)

/-! ## Uses after replacement -/

section Replace

variable {ε : Type} {rule : ExprNode Expr → Except ε (Option (ExprNode Expr))}

/-- A use whose expressions were replaced. -/
inductive Use.Replaced (rule : ExprNode Expr → Except ε (Option (ExprNode Expr))) : Use → Use → Prop
  | value {expr result : Expr} (replaced : expr.replace rule = .ok result) : Replaced rule (.value expr) (.value result)
  | check {relation : String} {values results : List Expr} (replaced : Expr.replaceAll rule values = .ok results) :
      Replaced rule (.check relation values) (.check relation results)
  | emptiness (relation : String) : Replaced rule (.emptiness relation) (.emptiness relation)

/-- Replacing the expressions of a condition replaces those of its uses. -/
theorem Cond.exists_replaced {condition result : Cond} (replaced : condition.replace rule = .ok result) :
    result.Uses fun use => ∃ before ∈ condition.uses, Use.Replaced rule before use := by
  induction condition generalizing result with
  | both left right leftReplaces rightReplaces =>
      obtain ⟨first, isFirst, finished⟩ := of_bind_eq_ok replaced
      obtain ⟨second, isSecond, same⟩ := of_bind_eq_ok finished
      cases same
      intro use member
      rcases List.mem_append.1 member with inFirst | inSecond
      · obtain ⟨before, isBefore, isReplaced⟩ := leftReplaces isFirst use inFirst
        exact ⟨before, List.mem_append_left _ isBefore, isReplaced⟩
      · obtain ⟨before, isBefore, isReplaced⟩ := rightReplaces isSecond use inSecond
        exact ⟨before, List.mem_append_right _ isBefore, isReplaced⟩
  | not condition replaces =>
      obtain ⟨inner, isInner, same⟩ := of_bind_eq_ok replaced
      cases same
      exact @replaces inner isInner
  | compare op left right =>
      obtain ⟨first, isFirst, finished⟩ := of_bind_eq_ok replaced
      obtain ⟨second, isSecond, same⟩ := of_bind_eq_ok finished
      cases same
      exact .compare ⟨_, by simp [Cond.uses], .value isFirst⟩ ⟨_, by simp [Cond.uses], .value isSecond⟩
  | holds relation values =>
      obtain ⟨exprs, areExprs, same⟩ := of_bind_eq_ok replaced
      cases same
      exact .check ⟨_, List.mem_singleton.2 rfl, .check areExprs⟩
  | isEmpty relation =>
      cases replaced
      exact List.forall_mem_singleton.2 ⟨_, List.mem_singleton.2 rfl, .emptiness relation⟩
  | true | false =>
      cases replaced
      exact fun _ member => absurd member List.not_mem_nil

end Replace

end DatalogRam.Ram
