import DatalogRam.Proofs.Lowering.Writing
import DatalogRam.Proofs.Ram.Forest
import DatalogRam.Proofs.Ram.Reading
import Mathlib.Algebra.BigOperators.Group.List.Basic

/-!
# Planting

`Plants taken code` says that code keeps the forest in the arena of a draft: it takes some roots, which become children
or are given up, and the roots of its result come in their place. Every other root is still one, also after a
failure. At every root the arena shows the tree that it is the root of. The bodies of the subroutines are roots that are
never taken. The rules follow the ways in which code is composed.
-/

namespace DatalogRam.Ram

/-! ## Roots and their trees -/

/-- A node of an arena with the tree that hangs from it. -/
inductive Root where
  | expr (placed : Placed Expr)
  | cond (placed : Placed Cond)
  | op (placed : Placed Op)
  | stmt (placed : Placed Stmt)

def Root.ref : Root → NodeRef
  | expr placed => ⟨.expr, placed.id⟩
  | cond placed => ⟨.cond, placed.id⟩
  | op placed => ⟨.op, placed.id⟩
  | stmt placed => ⟨.stmt, placed.id⟩

namespace Arena

/-- The tree of a root is what is read at its number. -/
def Shows (arena : Arena) : Root → Prop
  | .expr placed => arena.exprAt? placed.id = some placed.tree
  | .cond placed => arena.condAt? placed.id = some placed.tree
  | .op placed => arena.opAt? placed.id = some placed.tree
  | .stmt placed => arena.stmtAt? placed.id = some placed.tree

/-- The code in an arena is a forest that shows the trees of its roots. -/
structure Bears (arena : Arena) (roots : Multiset Root) : Prop where
  isForest : arena.IsForest (roots.map Root.ref)
  shows : ∀ root ∈ roots, arena.Shows root

variable {arena after : Arena} {given roots fewer rest : Multiset Root}

theorem Extends.shows (extends' : after.Extends arena) {root : Root} (shows : arena.Shows root) : after.Shows root := by
  cases root with
  | expr => exact extends'.exprAt? shows
  | cond => exact extends'.condAt? shows
  | op => exact extends'.opAt? shows
  | stmt => exact extends'.stmtAt? shows

namespace Bears

theorem empty : Arena.empty.Bears 0 :=
  ⟨.empty, fun _ member => absurd member (Multiset.notMem_zero _)⟩

theorem mono (bears : arena.Bears roots) (le : fewer ≤ roots) : arena.Bears fewer where
  isForest := bears.isForest.mono (Multiset.map_le_map le)
  shows root member := bears.shows root (Multiset.mem_of_le le member)

/-- Roots become the children of a new root, which is shown if they are. -/
theorem adds {root : Root} {children : List NodeRef} (bears : arena.Bears (given + rest))
    (adds : arena.Adds after root.ref.sort children) (numbered : root.ref.id = arena.size root.ref.sort)
    (same : given.map Root.ref = children) (extends' : after.Extends arena)
    (shows : (∀ child ∈ given, arena.Shows child) → after.Shows root) : after.Bears ({root} + rest) where
  isForest := by
    have isForest := bears.isForest
    rw [Multiset.map_add, same] at isForest
    have grown := isForest.adds adds
    rw [← numbered] at grown
    rwa [Multiset.map_add, Multiset.map_singleton]
  shows other member := by
    rcases Multiset.mem_add.1 member with isNew | isOld
    · rw [Multiset.mem_singleton.1 isNew]
      exact shows fun child isChild => bears.shows child (Multiset.mem_add.2 (.inl isChild))
    · exact extends'.shows (bears.shows other (Multiset.mem_add.2 (.inr isOld)))

end Bears

end Arena

/-! ## The roots of a value -/

/-- The sort of the nodes in which trees of a type are laid out. -/
class HasSort (τ : Type) where
  sort : NodeSort

instance : HasSort Expr := ⟨.expr⟩

instance : HasSort Cond := ⟨.cond⟩

instance : HasSort Op := ⟨.op⟩

instance : HasSort Stmt := ⟨.stmt⟩

/-- The root of a tree in an arena. -/
def Placed.ref {τ : Type} [HasSort τ] (placed : Placed τ) : NodeRef :=
  ⟨HasSort.sort τ, placed.id⟩

/-- Trees of a type hang from roots. -/
class HasRoot (τ : Type) [HasSort τ] where
  root : Placed τ → Root
  ref_root : ∀ placed : Placed τ, (root placed).ref = placed.ref

instance : HasRoot Expr := ⟨.expr, fun _ => rfl⟩

instance : HasRoot Cond := ⟨.cond, fun _ => rfl⟩

instance : HasRoot Op := ⟨.op, fun _ => rfl⟩

instance : HasRoot Stmt := ⟨.stmt, fun _ => rfl⟩

/-- The roots of the trees that a value holds. -/
class Rooted (α : Type) where
  roots : α → Multiset Root

export Rooted (roots)

section Roots

variable {α β ε τ : Type} [Rooted α] [Rooted β] [HasSort τ] [HasRoot τ]

instance : Rooted (Placed τ) := ⟨fun placed => {HasRoot.root placed}⟩

instance : Rooted (List α) := ⟨fun values => (values.map roots).sum⟩

instance : Rooted (Option α) := ⟨fun found => found.elim 0 roots⟩

instance : Rooted (α × β) := ⟨fun pair => roots pair.1 + roots pair.2⟩

instance : Rooted (Except ε α) := ⟨fun result => (result.toOption).elim 0 roots⟩

instance : Rooted Unit := ⟨fun _ => 0⟩

instance : Rooted Bool := ⟨fun _ => 0⟩

instance : Rooted Subroutine := ⟨fun subroutine => roots subroutine.body⟩

@[simp] theorem roots_nil : roots ([] : List α) = 0 := rfl

@[simp] theorem roots_cons (value : α) (values : List α) : roots (value :: values) = roots value + roots values :=
  List.sum_cons

@[simp] theorem roots_append (left right : List α) : roots (left ++ right) = roots left + roots right := by
  change ((left ++ right).map roots).sum = _
  rw [List.map_append, List.sum_append]
  rfl

@[simp] theorem roots_flatten (lists : List (List α)) : roots lists.flatten = roots lists := by
  induction lists with
  | nil => rfl
  | cons values lists ih => rw [List.flatten_cons, roots_append, roots_cons, ih]

@[simp] theorem roots_none : roots (none : Option α) = 0 := rfl

@[simp] theorem roots_some (value : α) : roots (some value) = roots value := rfl

@[simp] theorem roots_toList (found : Option α) : roots found.toList = roots found := by
  cases found with
  | none => rfl
  | some value => exact add_zero _

@[simp] theorem roots_pair (a : α) (b : β) : roots (a, b) = roots a + roots b := rfl

@[simp] theorem roots_unit (value : Unit) : roots value = 0 := rfl

@[simp] theorem roots_bool (value : Bool) : roots value = 0 := rfl

@[simp] theorem roots_ok (value : α) : roots (.ok value : Except ε α) = roots value := rfl

@[simp] theorem roots_error (error : ε) : roots (.error error : Except ε α) = 0 := rfl

/-- Values with one root each. -/
theorem coe_map_eq_roots (root : α → Root) (single : ∀ value, roots value = {root value}) (values : List α) :
    (values.map root : Multiset Root) = roots values := by
  induction values with
  | nil => rfl
  | cons first rest ih =>
      rw [roots_cons, ← ih, single]
      rfl

theorem coe_map_root (placed : List (Placed τ)) : (placed.map HasRoot.root : Multiset Root) = roots placed :=
  coe_map_eq_roots HasRoot.root (fun _ => rfl) placed

theorem map_ref_roots (placed : List (Placed τ)) : (roots placed).map Root.ref = placed.map Placed.ref := by
  rw [← coe_map_root, Multiset.map_coe, List.map_map]
  exact congrArg _ (List.map_congr_left fun child _ => HasRoot.ref_root child)

theorem forall_mem_roots {placed : List (Placed τ)} {holds : Root → Prop} :
    (∀ root ∈ roots placed, holds root) ↔ ∀ child ∈ placed, holds (HasRoot.root child) := by
  rw [← coe_map_root]
  exact List.forall_mem_map

theorem forall_mem_add {left right : Multiset Root} {holds : Root → Prop} :
    (∀ root ∈ left + right, holds root) ↔ (∀ root ∈ left, holds root) ∧ ∀ root ∈ right, holds root := by
  simp only [Multiset.mem_add, or_imp, forall_and]

end Roots

end DatalogRam.Ram

namespace DatalogRam.Lowering

open Ram

/-- The code of a draft is a forest, of which the bodies of the subroutines and the given ones are roots. -/
def Draft.Bears (draft : Draft) (given : Multiset Root) : Prop :=
  draft.arena.Bears (given + roots (draft.subroutines.map Prod.snd))

variable {α β γ : Type} [Rooted α] [Rooted β] {taken kept whole : Multiset Root}

theorem Draft.Bears.mono {draft : Draft} (bears : draft.Bears whole) (le : kept ≤ whole) : draft.Bears kept :=
  Arena.Bears.mono bears (add_le_add_left le _)

/-- Roots that were taken need not come back. -/
theorem Draft.Bears.drop {draft : Draft} (bears : draft.Bears (taken + kept)) : draft.Bears (0 + kept) :=
  bears.mono (add_le_add_left (Multiset.zero_le taken) kept)

/-- Code that was written after an earlier draft may be changed in place. References stay as they are, what was there
before is kept, and the changed trees are shown at the same nodes. -/
theorem Draft.Bears.rewrite {draft written : Draft} {arena : Arena} {old new : Multiset Root}
    (before : draft.Bears (0 + kept)) (bears : written.Bears (old + kept))
    (subroutines : written.subroutines = draft.subroutines) (sameShape : written.arena.SameShape arena)
    (keeps : arena.Extends draft.arena) (inPlace : new.map Root.ref = old.map Root.ref)
    (shows : ∀ root ∈ new, arena.Shows root) : Draft.Bears { written with arena := arena } (new + kept) where
  isForest := by
    have isForest := bears.isForest
    rw [Multiset.map_add, Multiset.map_add, ← inPlace, ← Multiset.map_add, ← Multiset.map_add] at isForest
    exact isForest.congr sameShape
  shows := by
    obtain ⟨others, bodies⟩ := forall_mem_add.1 before.shows
    rw [← subroutines] at bodies
    rw [zero_add] at others
    exact forall_mem_add.2 ⟨forall_mem_add.2 ⟨shows, fun root member => keeps.shows (others root member)⟩,
      fun root member => keeps.shows (bodies root member)⟩

/-- Code takes roots of a forest, and the roots of its result come in their place. -/
def Plants (taken : Multiset Root) (code : Lower α) : Prop :=
  ∀ draft rest, draft.Bears (taken + rest) → (outcome code draft).2.Bears (roots (outcome code draft).1 + rest)

/-- Code that changes neither the arena nor the subroutines. -/
def Still {α : Type} (code : Lower α) : Prop :=
  ∀ draft, (outcome code draft).2.arena = draft.arena ∧ (outcome code draft).2.subroutines = draft.subroutines

namespace Plants

theorem pure {a : α} (same : taken = roots a) : Plants taken (pure a) := by
  rintro draft rest bears
  rw [same] at bears
  exact bears

/-- After a failure no root of a result is needed. -/
theorem throw (error : LoweringError) : Plants taken (throw error : Lower α) := by
  intro draft rest bears
  exact bears.drop

theorem of_eq {code : Lower α} (plants : Plants taken code) (same : whole = taken) : Plants whole code :=
  same ▸ plants

/-- The first step takes its share of the roots, and the second one what is left and what the first one gives. -/
theorem bind {code : Lower α} {next : α → Lower β} (first : Plants taken code)
    (second : ∀ a, Plants (roots a + kept) (next a)) : Plants (taken + kept) (code >>= next) := by
  intro draft rest bears
  rw [add_assoc] at bears
  have after := first draft (kept + rest) bears
  rw [outcome_bind]
  cases ran : outcome code draft with
  | mk result last =>
      rw [ran] at after
      cases result with
      | ok a =>
          apply second a last rest
          rw [add_assoc]
          exact after
      | error error =>
          rw [roots_error, zero_add] at after
          exact after.drop

/-- The first step takes nothing. -/
theorem fresh {code : Lower α} {next : α → Lower β} (first : Plants 0 code)
    (second : ∀ a, Plants (roots a + kept) (next a)) : Plants kept (code >>= next) := by
  have both := first.bind second
  rwa [zero_add] at both

/-- The second step takes what the first one gives and nothing else. -/
theorem feed {code : Lower α} {next : α → Lower β} (first : Plants taken code)
    (second : ∀ a, Plants (roots a) (next a)) : Plants taken (code >>= next) := by
  rw [← add_zero taken]
  apply first.bind
  intro a
  rw [add_zero]
  exact second a

/-- The second step changes what the first one wrote where it is. -/
theorem rewrite {code : Lower α} {change : α → Lower β} (plants : Plants 0 code) (retains : Retains code)
    (changes : ∀ {draft written a}, outcome code draft = (.ok a, written) →
      ∃ result arena, outcome (change a) written = (result, { written with arena := arena }) ∧
        written.arena.SameShape arena ∧ arena.Extends draft.arena ∧
        ∀ b, result = .ok b → (roots b).map Root.ref = (roots a).map Root.ref ∧ ∀ root ∈ roots b, arena.Shows root) :
    Plants 0 (code >>= change) := by
  intro draft rest bears
  have written := plants draft rest bears
  have subroutines := retains.subroutines draft
  rw [outcome_bind]
  cases ran : outcome code draft with
  | mk result middle =>
      rw [ran] at written subroutines
      cases result with
      | error error => exact written
      | ok a =>
          obtain ⟨result, arena, changed, sameShape, keeps, becomes⟩ := changes ran
          change Draft.Bears (outcome (change a) middle).2 (roots (outcome (change a) middle).1 + rest)
          rw [changed]
          cases result with
          | ok b =>
              obtain ⟨inPlace, shows⟩ := becomes b rfl
              exact bears.rewrite written subroutines sameShape keeps inPlace shows
          | error error =>
              exact bears.rewrite written.drop subroutines sameShape keeps rfl fun _ member =>
                absurd member (Multiset.notMem_zero _)

theorem inSome {code : Lower α} (plants : Plants taken code) : Plants taken (some <$> code) := by
  rw [← bind_pure_comp]
  exact plants.feed fun a => pure rfl

/-- A step that leaves the arena as it is. -/
theorem after {code : Lower γ} {next : γ → Lower α} (first : Still code) (second : ∀ c, Plants taken (next c)) :
    Plants taken (code >>= next) := by
  intro draft rest bears
  obtain ⟨arena, subroutines⟩ := first draft
  rw [outcome_bind]
  cases ran : outcome code draft with
  | mk result last =>
      rw [ran] at arena subroutines
      have here : last.Bears (taken + rest) := by
        rw [Draft.Bears, arena, subroutines]
        exact bears
      cases result with
      | ok c => exact second c last rest here
      | error error => exact here.drop

/-- Errors may be told in other words. -/
theorem adapt {code : Lower α} (change : LoweringError → LoweringError) (plants : Plants taken code) :
    Plants taken (ExceptT.adapt change code : Lower α) := by
  intro draft rest bears
  have after := plants draft rest bears
  have same : outcome (ExceptT.adapt change code : Lower α) draft =
      ((outcome code draft).1.mapError change, (outcome code draft).2) := rfl
  rw [same]
  cases ran : (outcome code draft).1 <;> rwa [ran] at after

theorem mapM {code : γ → Lower α} (elements : List γ) (each : ∀ element, Plants 0 (code element)) :
    Plants 0 (elements.mapM code) := by
  induction elements with
  | nil => exact pure rfl
  | cons element rest ih =>
      rw [List.mapM_cons]
      apply (each element).fresh
      intro first
      apply ih.fresh
      intro others
      exact pure (by simp [add_comm])

theorem filterMapM {code : γ → Lower (Option α)} (elements : List γ) (each : ∀ element, Plants 0 (code element)) :
    Plants 0 (elements.filterMapM code) := by
  induction elements with
  | nil => exact pure rfl
  | cons element rest ih =>
      rw [List.filterMapM_cons]
      apply (each element).fresh
      intro found
      cases found with
      | none => exact ih
      | some first =>
          apply ih.fresh
          intro others
          exact pure (by simp [add_comm])

theorem foldrM {code : γ → α → Lower α} (elements : List γ)
    (each : ∀ element a, Plants (roots a) (code element a)) (start : α) :
    Plants (roots start) (elements.foldrM code start) := by
  induction elements with
  | nil => exact pure rfl
  | cons element rest ih =>
      rw [List.foldrM_cons]
      exact ih.feed (each element)

theorem forM {code : γ → Lower Unit} (elements : List γ) (each : ∀ element, Plants 0 (code element)) :
    Plants 0 (elements.forM code) := by
  induction elements with
  | nil => exact pure rfl
  | cons element rest ih => exact (each element).feed fun _ => ih

end Plants

/-! ## Steps that leave the arena as it is -/

namespace Still

theorem pure (c : γ) : Still (pure c : Lower γ) :=
  fun _ => ⟨rfl, rfl⟩

theorem bind {δ : Type} {code : Lower γ} {next : γ → Lower δ} (first : Still code) (second : ∀ c, Still (next c)) :
    Still (code >>= next) :=
  @related_bind _ _ (fun draft last => last.arena = draft.arena ∧ last.subroutines = draft.subroutines) _ _
    (fun before after => ⟨after.1.trans before.1, after.2.trans before.2⟩) first second

theorem lift (result : Except LoweringError γ) : Still (liftExcept result : Lower γ) := by
  intro draft
  cases result <;> exact ⟨rfl, rfl⟩

theorem plants {code : Lower Unit} (still : Still code) : Plants 0 code := by
  rw [← bind_pure code]
  exact Plants.after still fun _ => Plants.pure rfl

theorem report (level : Level) (message : String) (fields : List (String × String)) :
    Still (report level message fields) :=
  fun _ => ⟨rfl, rfl⟩

theorem encodeSymbol (text : String) : Still (encodeSymbol text) :=
  fun _ => ⟨rfl, rfl⟩

theorem declareTable (table : Table) : Still (declareTable table) := by
  intro draft
  change Draft.arena (if _ then _ else _) = _ ∧ Draft.subroutines (if _ then _ else _) = _
  split <;> exact ⟨rfl, rfl⟩

end Still

/-! ## Building in the arena -/

/-- A node takes its children and is a root. -/
theorem plants_node {τ : Type} [HasSort τ] [HasRoot τ] {build : Build (Placed τ)} (children : List NodeRef)
    (adds : ∀ arena : Arena, arena.Adds (build.run arena).2 (HasSort.sort τ) children)
    (numbered : ∀ arena : Arena, (build.run arena).1.id = arena.size (HasSort.sort τ))
    (same : taken.map Root.ref = children) (extends' : ∀ arena : Arena, (build.run arena).2.Extends arena)
    (shows : ∀ arena : Arena, (∀ child ∈ taken, arena.Shows child) →
      (build.run arena).2.Shows (HasRoot.root (build.run arena).1)) :
    Plants taken (inArena build) := by
  intro draft rest bears
  rw [Draft.Bears, add_assoc] at bears
  have ref := HasRoot.ref_root (build.run draft.arena).1
  have grown := bears.adds (ref ▸ adds draft.arena) (ref ▸ numbered draft.arena) same (extends' draft.arena)
    (shows draft.arena)
  rw [← add_assoc] at grown
  exact grown

theorem plants_expr (node : ExprNode (Placed Expr)) (same : taken = roots node.children) :
    Plants taken (inArena (placeExpr node)) := by
  subst same
  refine plants_node (node.map Placed.id).refs (fun arena => arena.adds_expr _) (fun _ => rfl) ?_
    (fun arena => .pushExpr arena _) fun arena shown => Arena.exprAt?_placeExpr (forall_mem_roots.1 shown)
  rw [map_ref_roots, ExprNode.refs, ExprNode.children_map, List.map_map]
  rfl

theorem plants_cond (node : CondNode (Placed Expr) (Placed Cond)) (same : taken = roots node.exprs + roots node.conds) :
    Plants taken (inArena (placeCond node)) := by
  subst same
  refine plants_node (node.map Placed.id Placed.id).refs (fun arena => arena.adds_cond _) (fun _ => rfl) ?_
    (fun arena => .pushCond arena _) fun arena shown => ?_
  · rw [Multiset.map_add, map_ref_roots, map_ref_roots, CondNode.refs, CondNode.exprs_map, CondNode.conds_map,
      List.map_map, List.map_map, ← Multiset.coe_add]
    rfl
  · obtain ⟨exprs, conds⟩ := forall_mem_add.1 shown
    exact Arena.condAt?_placeCond (forall_mem_roots.1 exprs) (forall_mem_roots.1 conds)

theorem plants_op (node : OpNode (Placed Expr) (Placed Cond) (Placed Op))
    (same : taken = roots node.exprs + roots node.conds + roots node.ops) :
    Plants taken (inArena (placeOp node)) := by
  subst same
  refine plants_node (node.map Placed.id Placed.id Placed.id).refs (fun arena => arena.adds_op _) (fun _ => rfl) ?_
    (fun arena => .pushOp arena _) fun arena shown => ?_
  · rw [Multiset.map_add, Multiset.map_add, map_ref_roots, map_ref_roots, map_ref_roots, OpNode.refs, OpNode.exprs_map,
      OpNode.conds_map, OpNode.ops_map, List.map_map, List.map_map, List.map_map, ← Multiset.coe_add,
      ← Multiset.coe_add]
    rfl
  · obtain ⟨others, ops⟩ := forall_mem_add.1 shown
    obtain ⟨exprs, conds⟩ := forall_mem_add.1 others
    exact Arena.opAt?_placeOp (forall_mem_roots.1 exprs) (forall_mem_roots.1 conds) (forall_mem_roots.1 ops)

theorem plants_stmt (node : StmtNode (Placed Cond) (Placed Op) (Placed Stmt))
    (same : taken = roots node.conds + roots node.ops + roots node.stmts) :
    Plants taken (inArena (placeStmt node)) := by
  subst same
  refine plants_node (node.map Placed.id Placed.id Placed.id).refs (fun arena => arena.adds_stmt _) (fun _ => rfl) ?_
    (fun arena => .pushStmt arena _) fun arena shown => ?_
  · rw [Multiset.map_add, Multiset.map_add, map_ref_roots, map_ref_roots, map_ref_roots, StmtNode.refs,
      StmtNode.conds_map, StmtNode.ops_map, StmtNode.stmts_map, List.map_map, List.map_map, List.map_map,
      ← Multiset.coe_add, ← Multiset.coe_add]
    rfl
  · obtain ⟨others, stmts⟩ := forall_mem_add.1 shown
    obtain ⟨conds, ops⟩ := forall_mem_add.1 others
    exact Arena.stmtAt?_placeStmt (forall_mem_roots.1 conds) (forall_mem_roots.1 ops) (forall_mem_roots.1 stmts)

theorem plants_both (left right : Placed Cond) :
    Plants (roots left + roots right) (inArena (placeCond (.both left right))) :=
  plants_cond (.both left right) (by simp [CondNode.exprs, CondNode.conds])

theorem plants_compare (op : Comparison) (left right : Placed Expr) :
    Plants (roots left + roots right) (inArena (placeCond (.compare op left right))) :=
  plants_cond (.compare op left right) (by simp [CondNode.exprs, CondNode.conds])

theorem plants_holds (relation : String) (values : List (Placed Expr)) :
    Plants (roots values) (inArena (placeCond (.holds relation values))) :=
  plants_cond (.holds relation values) (by simp [CondNode.exprs, CondNode.conds])

theorem plants_negation (condition : Placed Cond) : Plants (roots condition) (inArena (negation condition)) :=
  plants_cond (.not condition) (by simp [CondNode.exprs, CondNode.conds])

theorem plants_filter (condition : Placed Cond) (nested : Placed Op) :
    Plants (roots condition + roots nested) (inArena (filter condition nested)) :=
  plants_op (.filter condition nested) (by simp [OpNode.exprs, OpNode.conds, OpNode.ops])

theorem plants_query (operation : Placed Op) : Plants (roots operation) (inArena (query operation)) :=
  plants_stmt (.query operation) (by simp [StmtNode.conds, StmtNode.ops, StmtNode.stmts])

theorem plants_sequence (statements : List (Placed Stmt)) :
    Plants (roots statements) (inArena (sequence statements)) :=
  plants_stmt (.sequence statements) (by simp [StmtNode.conds, StmtNode.ops, StmtNode.stmts])

theorem plants_conjunction (conditions : List (Placed Cond)) :
    Plants (roots conditions) (inArena (conjunction conditions)) := by
  cases conditions with
  | nil => exact plants_cond .true rfl
  | cons first rest =>
      rw [conjunction]
      induction rest generalizing first with
      | nil => exact Plants.pure (by simp)
      | cons second rest ih =>
          rw [List.foldlM_cons, inArena_bind, roots_cons, roots_cons, ← add_assoc]
          apply (plants_both first second).bind
          intro joined
          have onward := ih joined
          rwa [roots_cons] at onward

mutual

theorem plants_copyExpr : ∀ expr : Expr, Plants 0 (inArena (copyExpr expr))
  | .signed _ | .unsigned _ | .float _ | .element _ _ | .argument _ | .undefined | .autoIncrement =>
      plants_expr _ rfl
  | .operator op args => by
      rw [copyExpr, inArena_bind]
      exact (plants_copyExprs args).feed fun copies => plants_expr (.operator op copies) rfl
  | .external name args => by
      rw [copyExpr, inArena_bind]
      exact (plants_copyExprs args).feed fun copies => plants_expr (.external name copies) rfl
  | .pack args => by
      rw [copyExpr, inArena_bind]
      exact (plants_copyExprs args).feed fun copies => plants_expr (.pack copies) rfl

/-- A copy takes nothing: it consists of new nodes only. -/
theorem plants_copyExprs : ∀ exprs : List Expr, Plants 0 (inArena (copyExprs exprs))
  | [] => Plants.pure rfl
  | expr :: exprs => by
      rw [copyExprs, inArena_bind]
      apply (plants_copyExpr expr).fresh
      intro copy
      rw [inArena_bind]
      apply (plants_copyExprs exprs).fresh
      intro copies
      exact Plants.pure (by simp [add_comm])

end

theorem plants_copyCond (condition : Cond) : Plants 0 (inArena (copyCond condition)) := by
  induction condition with
  | both left right leftCopy rightCopy =>
      rw [copyCond, inArena_bind]
      apply leftCopy.fresh
      intro first
      rw [inArena_bind]
      apply rightCopy.fresh
      intro second
      exact (plants_both first second).of_eq (by simp [add_comm])
  | not condition copied =>
      rw [copyCond, inArena_bind]
      exact copied.feed plants_negation
  | compare op left right =>
      rw [copyCond, inArena_bind]
      apply (plants_copyExpr left).fresh
      intro first
      rw [inArena_bind]
      apply (plants_copyExpr right).fresh
      intro second
      exact (plants_compare op first second).of_eq (by simp [add_comm])
  | holds relation values =>
      rw [copyCond, inArena_bind]
      exact (plants_copyExprs values).feed (plants_holds relation)
  | true | false | isEmpty => exact plants_cond _ rfl

end DatalogRam.Lowering
