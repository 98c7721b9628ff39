import DatalogRam.Proofs.Ram.Building
import DatalogRam.Proofs.Ram.Leaves

/-!
# Scopes of rows

An expression reads columns of rows that scans and aggregates bind to numbers. A read is free if no operation
around it binds its number. The nested operation of a scan or an aggregate is in the scope of its row, and so are
the value and the condition of an aggregate. Code without free reads is scoped.
-/

namespace DatalogRam.Ram

mutual

/-- The numbers of the rows that an expression reads. -/
def Expr.tuples : Expr → List Nat
  | .element tuple _ => [tuple]
  | .operator _ args => Expr.tuplesOfAll args
  | .external _ args => Expr.tuplesOfAll args
  | .pack args => Expr.tuplesOfAll args
  | .signed _ | .unsigned _ | .float _ | .argument _ | .undefined | .autoIncrement => []

def Expr.tuplesOfAll : List Expr → List Nat
  | [] => []
  | expr :: exprs => expr.tuples ++ Expr.tuplesOfAll exprs

end

def Cond.tuples (condition : Cond) : List Nat :=
  Expr.tuplesOfAll condition.exprs

/-- The free reads of an operation. -/
def Op.free : Op → List Nat
  | .scan _ tuple nested => nested.free.filter (· ≠ tuple)
  | .filter condition nested => condition.tuples ++ nested.free
  | .aggregate _ tuple _ value condition nested =>
      (Expr.tuplesOfAll value.toList ++ condition.tuples ++ nested.free).filter (· ≠ tuple)
  | .insert _ values => Expr.tuplesOfAll values
  | .answer values => Expr.tuplesOfAll values

mutual

def Stmt.free : Stmt → List Nat
  | .sequence statements => Stmt.freeOfAll statements
  | .query operation => operation.free
  | .loop body => body.free
  | .exit condition => condition.tuples
  | .debug _ statement => statement.free
  | .clear _ | .swap .. | .merge .. => []

def Stmt.freeOfAll : List Stmt → List Nat
  | [] => []
  | statement :: statements => statement.free ++ Stmt.freeOfAll statements

end

/-- All reads are within the scope of a row with their number. -/
def Stmt.Scoped (statement : Stmt) : Prop :=
  statement.free = []

instance (statement : Stmt) : Decidable statement.Scoped :=
  inferInstanceAs (Decidable (statement.free = []))

theorem Expr.mem_tuplesOfAll {exprs : List Expr} {tuple : Nat} :
    tuple ∈ Expr.tuplesOfAll exprs ↔ ∃ expr ∈ exprs, tuple ∈ expr.tuples := by
  induction exprs with
  | nil => simp [Expr.tuplesOfAll]
  | cons expr exprs ih => simp [Expr.tuplesOfAll, ih]

theorem Stmt.Scoped.sequence {statements : List Stmt} (each : ∀ statement ∈ statements, statement.Scoped) :
    (Stmt.sequence statements).Scoped := by
  change Stmt.freeOfAll statements = []
  induction statements with
  | nil => rfl
  | cons statement rest ih =>
      rw [Stmt.freeOfAll, show statement.free = [] from each statement List.mem_cons_self,
        ih fun other member => each other (List.mem_cons_of_mem _ member), List.append_nil]

/-! ## Reads below a limit -/

/-- An expression reads only rows with numbers below a limit. -/
def Expr.Below (limit : Nat) (expr : Expr) : Prop :=
  ∀ tuple ∈ expr.tuples, tuple < limit

def Cond.Below (limit : Nat) (condition : Cond) : Prop :=
  ∀ expr ∈ condition.exprs, expr.Below limit

/-- An operation may be nested in operations that bind all rows with numbers below a limit. -/
def Op.Below (limit : Nat) (operation : Op) : Prop :=
  ∀ tuple ∈ operation.free, tuple < limit

variable {limit tuple : Nat} {operation : Op} {condition : Cond} {exprs values : List Expr}

theorem Expr.below_of_all (each : ∀ expr ∈ exprs, expr.Below limit) :
    ∀ tuple ∈ Expr.tuplesOfAll exprs, tuple < limit := by
  intro tuple member
  obtain ⟨expr, isExpr, reads⟩ := Expr.mem_tuplesOfAll.1 member
  exact each expr isExpr tuple reads

theorem Expr.Below.element (inside : tuple < limit) (column : Nat) : (Expr.element tuple column).Below limit :=
  fun _ member => List.mem_singleton.1 member ▸ inside

theorem Expr.Below.mono {expr : Expr} {more : Nat} (below : expr.Below limit) (le : limit ≤ more) : expr.Below more :=
  fun tuple member => Nat.lt_of_lt_of_le (below tuple member) le

theorem Cond.Below.compare {op : Comparison} {left right : Expr} (leftBelow : left.Below limit)
    (rightBelow : right.Below limit) : (Cond.compare op left right).Below limit := by
  intro expr member
  simp only [Cond.exprs, List.mem_cons, List.not_mem_nil, or_false] at member
  rcases member with rfl | rfl
  · exact leftBelow
  · exact rightBelow

theorem Cond.Below.allOf {conditions : List Cond} (each : ∀ condition ∈ conditions, condition.Below limit) :
    (allOf conditions).Below limit :=
  of_allOf (fun _ member => absurd member List.not_mem_nil)
    (fun _ _ left right expr member => (List.mem_append.1 member).elim (left expr) (right expr)) each

theorem Op.Below.scan {relation : String} (nested : operation.Below (tuple + 1)) :
    (Op.scan relation tuple operation).Below tuple := by
  intro other member
  obtain ⟨reads, different⟩ := List.mem_filter.1 member
  have := nested other reads
  have := of_decide_eq_true different
  omega

theorem Op.Below.filter (checks : condition.Below limit) (nested : operation.Below limit) :
    (Op.filter condition operation).Below limit := by
  intro tuple member
  rcases List.mem_append.1 member with inCondition | inNested
  · exact Expr.below_of_all checks tuple inCondition
  · exact nested tuple inNested

theorem Op.Below.aggregate {relation : String} {function : Aggregation} {value : Option Expr}
    (folds : ∀ expr, value = some expr → expr.Below (tuple + 1)) (checks : condition.Below (tuple + 1))
    (nested : operation.Below (tuple + 1)) :
    (Op.aggregate relation tuple function value condition operation).Below tuple := by
  intro other member
  obtain ⟨reads, different⟩ := List.mem_filter.1 member
  have below : other < tuple + 1 := by
    rcases List.mem_append.1 reads with inOwn | inNested
    · rcases List.mem_append.1 inOwn with inValue | inCondition
      · exact Expr.below_of_all (fun expr isValue => folds expr (Option.mem_toList.1 isValue)) other inValue
      · exact Expr.below_of_all checks other inCondition
    · exact nested other inNested
  have := of_decide_eq_true different
  omega

/-- At the outermost place of a query there is nothing to read. -/
theorem Op.Below.isScoped (below : operation.Below 0) : (Stmt.query operation).Scoped :=
  List.eq_nil_iff_forall_not_mem.2 fun tuple member => absurd (below tuple member) (Nat.not_lt_zero tuple)

/-! ## Replacing all reads -/

mutual

/-- The rows that an expression reads are those of its leaves. -/
theorem Expr.mem_tuples {tuple : Nat} :
    ∀ expr : Expr, tuple ∈ expr.tuples ↔ ∃ column, .element tuple column ∈ expr.leaves
  | .operator _ args | .external _ args | .pack args => Expr.mem_tuplesOfAll_iff args
  | .element _ _ | .signed _ | .unsigned _ | .float _ | .argument _ | .undefined | .autoIncrement => by
      simp [Expr.tuples, Expr.leaves]

theorem Expr.mem_tuplesOfAll_iff {tuple : Nat} :
    ∀ exprs : List Expr, tuple ∈ Expr.tuplesOfAll exprs ↔ ∃ column, .element tuple column ∈ Expr.leavesOfAll exprs
  | [] => by simp [Expr.tuplesOfAll, Expr.leavesOfAll]
  | expr :: exprs => by
      simp only [Expr.tuplesOfAll, Expr.leavesOfAll, List.mem_append, exists_or, Expr.mem_tuples expr,
        Expr.mem_tuplesOfAll_iff exprs]

end

section Replace

variable {ε : Type} {rule : ExprNode Expr → Except ε (Option (ExprNode Expr))}

/-- A rule that replaces every read of a row and reads none itself. -/
structure TakesReads (rule : ExprNode Expr → Except ε (Option (ExprNode Expr))) : Prop where
  reads : ∀ tuple column, rule (.element tuple column) ≠ .ok none
  replacements : ∀ node replacement, rule node = .ok (some replacement) → (Expr.ofNode replacement).tuples = []

theorem TakesReads.not_leftBy (takes : TakesReads rule) {before : List Expr} {tuple column : Nat} :
    ¬LeftBy rule before (.element tuple column) := by
  rintro (⟨_, kept⟩ | ⟨node, replacement, answer, member⟩)
  · exact takes.reads tuple column kept
  · have reads := (Expr.mem_tuples _).2 ⟨column, member⟩
    rw [takes.replacements node replacement answer] at reads
    cases reads

/-- A rule that replaces every read leaves none. -/
theorem Expr.tuples_replace (takes : TakesReads rule) (expr : Expr) {result : Expr}
    (replaced : expr.replace rule = .ok result) : result.tuples = [] := by
  refine List.eq_nil_iff_forall_not_mem.2 fun tuple reads => ?_
  obtain ⟨column, member⟩ := (Expr.mem_tuples result).1 reads
  exact takes.not_leftBy (Expr.leaves_replace expr replaced _ member)

theorem Expr.tuples_replaceAll (takes : TakesReads rule) (exprs : List Expr) {results : List Expr}
    (replaced : Expr.replaceAll rule exprs = .ok results) : Expr.tuplesOfAll results = [] := by
  refine List.eq_nil_iff_forall_not_mem.2 fun tuple reads => ?_
  obtain ⟨column, member⟩ := (Expr.mem_tuplesOfAll_iff results).1 reads
  exact takes.not_leftBy (Expr.leaves_replaceAll exprs replaced _ member)

theorem Expr.tuplesOfAll_append (left right : List Expr) :
    Expr.tuplesOfAll (left ++ right) = Expr.tuplesOfAll left ++ Expr.tuplesOfAll right := by
  induction left with
  | nil => rfl
  | cons expr rest ih => rw [List.cons_append, Expr.tuplesOfAll, ih, Expr.tuplesOfAll, List.append_assoc]

theorem Cond.tuples_replace (takes : TakesReads rule) {condition result : Cond}
    (replaced : condition.replace rule = .ok result) : result.tuples = [] := by
  induction condition generalizing result with
  | both left right leftReads rightReads =>
      obtain ⟨first, isFirst, finished⟩ := of_bind_eq_ok replaced
      obtain ⟨second, isSecond, same⟩ := of_bind_eq_ok finished
      cases same
      rw [Cond.tuples, Cond.exprs, Expr.tuplesOfAll_append]
      exact List.append_eq_nil_iff.2 ⟨leftReads isFirst, rightReads isSecond⟩
  | not condition reads =>
      obtain ⟨inner, isInner, same⟩ := of_bind_eq_ok replaced
      cases same
      change inner.tuples = []
      exact reads isInner
  | compare op left right =>
      obtain ⟨first, isFirst, finished⟩ := of_bind_eq_ok replaced
      obtain ⟨second, isSecond, same⟩ := of_bind_eq_ok finished
      cases same
      simp only [Cond.tuples, Cond.exprs, Expr.tuplesOfAll, Expr.tuples_replace takes left isFirst,
        Expr.tuples_replace takes right isSecond, List.append_nil]
  | holds relation values =>
      obtain ⟨exprs, areExprs, same⟩ := of_bind_eq_ok replaced
      cases same
      exact Expr.tuples_replaceAll takes values areExprs
  | true | false | isEmpty =>
      cases replaced
      rfl

end Replace

end DatalogRam.Ram
