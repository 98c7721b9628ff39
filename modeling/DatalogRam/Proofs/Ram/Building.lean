import DatalogRam.Ram.Arena

/-!
# What building code gives

Building in an arena never fails and gives the same tree in every arena.
-/

namespace DatalogRam.Ram

/-- Building gives a result, as seen through a view, in every arena. -/
def Builds {α β : Type} (view : α → β) (build : Build α) (tree : β) : Prop :=
  ∀ arena, view (build.run arena).1 = tree

namespace Builds

variable {α β γ δ : Type} {view : α → β} {view' : γ → δ}

theorem pure (a : α) : Builds view (pure a) (view a) :=
  fun _ => rfl

theorem bind {build : Build α} {tree : β} {next : α → Build γ} {rest : δ} (first : Builds view build tree)
    (second : ∀ a, view a = tree → Builds view' (next a) rest) : Builds view' (build >>= next) rest :=
  fun arena => second _ (first arena) (build.run arena).2

theorem expr (node : ExprNode (Placed Expr)) :
    Builds Placed.tree (placeExpr node) (.ofNode (node.map Placed.tree)) :=
  fun _ => rfl

theorem cond (node : CondNode (Placed Expr) (Placed Cond)) :
    Builds Placed.tree (placeCond node) (.ofNode (node.map Placed.tree Placed.tree)) :=
  fun _ => rfl

theorem op (node : OpNode (Placed Expr) (Placed Cond) (Placed Op)) :
    Builds Placed.tree (placeOp node) (.ofNode (node.map Placed.tree Placed.tree Placed.tree)) :=
  fun _ => rfl

theorem stmt (node : StmtNode (Placed Cond) (Placed Op) (Placed Stmt)) :
    Builds Placed.tree (placeStmt node) (.ofNode (node.map Placed.tree Placed.tree Placed.tree)) :=
  fun _ => rfl

theorem mapM {build : γ → Build α} {tree : γ → β} (elements : List γ)
    (each : ∀ element, Builds view (build element) (tree element)) :
    Builds (List.map view) (elements.mapM build) (elements.map tree) := by
  induction elements with
  | nil => exact pure []
  | cons element rest ih =>
      rw [List.mapM_cons]
      refine (each element).bind fun a first => ih.bind fun more others => ?_
      rw [List.map_cons, ← first, ← others]
      exact pure (a :: more)

end Builds

theorem builds_sequence (statements : List (Placed Stmt)) :
    Builds Placed.tree (sequence statements) (.sequence (statements.map Placed.tree)) :=
  Builds.stmt (.sequence statements)

/-- All of the conditions, joined from the left. -/
def allOf : List Cond → Cond
  | [] => .true
  | first :: rest => rest.foldl .both first

/-- What holds of all conditions, and of two that are joined, holds of all of them together. -/
theorem of_allOf {holds : Cond → Prop} (none : holds .true)
    (both : ∀ left right, holds left → holds right → holds (.both left right)) {conditions : List Cond}
    (each : ∀ condition ∈ conditions, holds condition) : holds (allOf conditions) := by
  cases conditions with
  | nil => exact none
  | cons first rest =>
      rw [allOf]
      induction rest generalizing first with
      | nil => exact each first List.mem_cons_self
      | cons second rest ih =>
          refine ih (.both first second) fun condition member => ?_
          rcases List.mem_cons.1 member with rfl | inRest
          · exact both first second (each first List.mem_cons_self) (each second (by simp))
          · exact each condition (by simp [inRest])

theorem builds_conjunction (conditions : List (Placed Cond)) :
    Builds Placed.tree (conjunction conditions) (allOf (conditions.map Placed.tree)) := by
  cases conditions with
  | nil => exact Builds.cond .true
  | cons first rest =>
      change Builds Placed.tree (rest.foldlM _ first) ((rest.map Placed.tree).foldl .both first.tree)
      induction rest generalizing first with
      | nil => exact Builds.pure first
      | cons second rest ih =>
          rw [List.foldlM_cons]
          refine (Builds.cond (.both first second)).bind fun joined isJoined => ?_
          have joinedTree : joined.tree = .both first.tree second.tree := isJoined
          rw [List.map_cons, List.foldl_cons, ← joinedTree]
          exact ih joined

mutual

theorem builds_copyExpr : ∀ expr : Expr, Builds Placed.tree (copyExpr expr) expr
  | .signed _ => Builds.expr _
  | .unsigned _ => Builds.expr _
  | .float _ => Builds.expr _
  | .element _ _ => Builds.expr _
  | .argument _ => Builds.expr _
  | .undefined => Builds.expr _
  | .autoIncrement => Builds.expr _
  | .operator op args => by
      rw [copyExpr]
      refine (builds_copyExprs args).bind fun copies copied => ?_
      rw [← copied]
      exact Builds.expr (.operator op copies)
  | .external name args => by
      rw [copyExpr]
      refine (builds_copyExprs args).bind fun copies copied => ?_
      rw [← copied]
      exact Builds.expr (.external name copies)
  | .pack args => by
      rw [copyExpr]
      refine (builds_copyExprs args).bind fun copies copied => ?_
      rw [← copied]
      exact Builds.expr (.pack copies)

/-- A copy has the trees that were copied. -/
theorem builds_copyExprs : ∀ exprs : List Expr, Builds (List.map Placed.tree) (copyExprs exprs) exprs
  | [] => Builds.pure []
  | expr :: exprs => by
      rw [copyExprs]
      refine (builds_copyExpr expr).bind fun copy copied => ?_
      refine (builds_copyExprs exprs).bind fun copies rest => ?_
      rw [← copied, ← rest]
      exact Builds.pure (copy :: copies)

end

theorem builds_copyCond (condition : Cond) : Builds Placed.tree (copyCond condition) condition := by
  induction condition with
  | both left right leftCopies rightCopies =>
      rw [copyCond]
      refine leftCopies.bind fun first copied => rightCopies.bind fun second alsoCopied => ?_
      rw [← copied, ← alsoCopied]
      exact Builds.cond (.both first second)
  | not condition copies =>
      rw [copyCond]
      refine copies.bind fun copy copied => ?_
      rw [← copied]
      exact Builds.cond (.not copy)
  | compare op left right =>
      rw [copyCond]
      refine (builds_copyExpr left).bind fun first copied => (builds_copyExpr right).bind fun second alsoCopied => ?_
      rw [← copied, ← alsoCopied]
      exact Builds.cond (.compare op first second)
  | holds relation values =>
      rw [copyCond]
      refine (builds_copyExprs values).bind fun copies copied => ?_
      rw [← copied]
      exact Builds.cond (.holds relation copies)
  | true | false | isEmpty => exact Builds.cond _

end DatalogRam.Ram
