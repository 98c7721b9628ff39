import DatalogRam.Proofs.Ram.Leaves
import DatalogRam.Proofs.Ram.Substitution

/-!
# What is read after a substitution

A mapper may do on nodes of an arena what a rule does on trees. If what it puts in the place of nodes refers to nothing
but older trees, then reading the roots after the substitution gives what the rule makes of their trees, and the
mapper fails exactly where the rule does.
-/

namespace DatalogRam.Ram

/-! ## Replacing by layers -/

namespace ExprNode

variable {ρ τ υ : Type}

/-- The node with other children. -/
def withChildren (children : List τ) : ExprNode ρ → ExprNode τ
  | .signed value => .signed value
  | .unsigned value => .unsigned value
  | .float value => .float value
  | .element tuple column => .element tuple column
  | .argument index => .argument index
  | .undefined => .undefined
  | .operator op _ => .operator op children
  | .external name _ => .external name children
  | .pack _ => .pack children
  | .autoIncrement => .autoIncrement

theorem map_withChildren (node : ExprNode ρ) (children : List τ) (f : τ → υ) :
    (node.withChildren children).map f = node.withChildren (children.map f) := by
  cases node <;> rfl

theorem withChildren_map (node : ExprNode ρ) (f : ρ → τ) (children : List υ) :
    (node.map f).withChildren children = node.withChildren children := by
  cases node <;> rfl

theorem withChildren_children (node : ExprNode ρ) : node.withChildren node.children = node := by
  cases node <;> rfl

theorem mem_of_mem_withChildren {node : ExprNode ρ} {children : List τ} {child : τ}
    (member : child ∈ (node.withChildren children).children) : child ∈ children := by
  cases node with
  | operator | external | pack => exact member
  | _ => exact absurd member List.not_mem_nil

end ExprNode

variable {ε σ : Type} {rule : ExprNode Expr → Except ε (Option (ExprNode Expr))} {error : ε}

namespace Expr

theorem replace_ofNode (node : ExprNode Expr) :
    (ofNode node).replace rule = (rule node >>= fun answer =>
      match answer with
      | some replacement => pure (ofNode replacement)
      | none => replaceAll rule node.children >>= fun children => pure (ofNode (node.withChildren children))) := by
  cases node <;> rfl

theorem replace_of_error {node : ExprNode Expr} (answer : rule node = .error error) :
    (ofNode node).replace rule = .error error := by
  rw [replace_ofNode, answer]
  rfl

theorem replace_of_some {node replacement : ExprNode Expr} (answer : rule node = .ok (some replacement)) :
    (ofNode node).replace rule = .ok (ofNode replacement) := by
  rw [replace_ofNode, answer]
  rfl

theorem replace_of_none {node : ExprNode Expr} (answer : rule node = .ok none) :
    (ofNode node).replace rule =
      (replaceAll rule node.children).map fun children => ofNode (node.withChildren children) := by
  rw [replace_ofNode, answer]
  change (replaceAll rule node.children >>= _) = _
  cases replaceAll rule node.children <;> rfl

end Expr

theorem map_unit_of_bind {α β γ : Type} (first : Except ε α) (second : Except ε β) (f : α → β → γ) :
    (first >>= fun a => second.map (f a)).map (fun _ => ()) =
      (first.map (fun _ => ()) >>= fun _ => second.map fun _ => ()) := by
  cases first <;> cases second <;> rfl

/-- Replacing in a condition ends as replacing in its expressions does. -/
theorem Cond.ended_replace (condition : Cond) :
    (condition.replace rule).map (fun _ => ()) = (Expr.replaceAll rule condition.exprs).map fun _ => () := by
  induction condition with
  | both left right isLeft isRight =>
      rw [Cond.exprs, Expr.replaceAll_append, map_unit_of_bind, ← isLeft, ← isRight, Cond.replace]
      cases left.replace rule <;> cases right.replace rule <;> rfl
  | not condition isInner =>
      rw [Cond.exprs, ← isInner, Cond.replace]
      cases condition.replace rule <;> rfl
  | compare op left right =>
      rw [Cond.exprs, Cond.replace, Expr.replaceAll, Expr.replaceAll]
      cases left.replace rule with
      | error error => rfl
      | ok first => cases right.replace rule <;> rfl
  | holds relation values =>
      rw [Cond.exprs, Cond.replace]
      cases Expr.replaceAll rule values <;> rfl
  | true | false | isEmpty => rfl

/-- What becomes of a placed tree, at its old number. -/
def Placed.Changed {τ : Type} (replace : τ → Except ε τ) (old new : Placed τ) : Prop :=
  new.id = old.id ∧ replace old.tree = .ok new.tree

section Changed

variable {τ : Type} {replace : τ → Except ε τ} {olds news : List (Placed τ)}

theorem ids_of_changed (changed : List.Forall₂ (Placed.Changed replace) olds news) :
    news.map Placed.id = olds.map Placed.id := by
  induction changed with
  | nil => rfl
  | cons first _ ih => rw [List.map_cons, List.map_cons, first.1, ih]

theorem replaceAll_of_changed {olds news : List (Placed Expr)}
    (changed : List.Forall₂ (Placed.Changed (Expr.replace rule)) olds news) :
    Expr.replaceAll rule (olds.map Placed.tree) = .ok (news.map Placed.tree) := by
  induction changed with
  | nil => rfl
  | cons first _ ih =>
      rw [List.map_cons, Expr.replaceAll_cons_ok _ first.2, ih]
      rfl

theorem changed_append {left right : List (Placed τ)}
    (changed : List.Forall₂ (Placed.Changed replace) (left ++ right) news) :
    ∃ first second, news = first ++ second ∧ List.Forall₂ (Placed.Changed replace) left first ∧
      List.Forall₂ (Placed.Changed replace) right second :=
  ⟨_, _, (List.take_append_drop left.length news).symm, (List.forall₂_take_append _ _ _ changed.flip).flip,
    (List.forall₂_drop_append _ _ _ changed.flip).flip⟩

end Changed

namespace ExprNode

variable {node : ExprNode (Placed Expr)} {roots : List (Placed Expr)}

theorem ids_withChildren (changed : List.Forall₂ (Placed.Changed (Expr.replace rule)) node.children roots) :
    (node.withChildren roots).map Placed.id = node.map Placed.id := by
  rw [map_withChildren, ids_of_changed changed, ← map_withChildren, withChildren_children]

/-- A node that the rule keeps has what becomes of its children as children. -/
theorem replace_withChildren (kept : rule (node.map Placed.tree) = .ok none)
    (changed : List.Forall₂ (Placed.Changed (Expr.replace rule)) node.children roots) :
    (Expr.ofNode (node.map Placed.tree)).replace rule = .ok (.ofNode ((node.withChildren roots).map Placed.tree)) := by
  rw [Expr.replace_of_none kept, children_map, replaceAll_of_changed changed, map_withChildren]
  exact congrArg (fun new => Except.ok (Expr.ofNode new)) (withChildren_map _ _ _)

end ExprNode

/-- A node of a condition has what becomes of its parts as parts. -/
theorem CondNode.exists_changed {node : CondNode (Placed Expr) (Placed Cond)} {values : List (Placed Expr)}
    {inner : List (Placed Cond)} (exprs : List.Forall₂ (Placed.Changed (Expr.replace rule)) node.exprs values)
    (conds : List.Forall₂ (Placed.Changed (Cond.replace rule)) node.conds inner) :
    ∃ new : CondNode (Placed Expr) (Placed Cond), new.exprs = values ∧ new.conds = inner ∧
      new.map Placed.id Placed.id = node.map Placed.id Placed.id ∧
      (Cond.ofNode (node.map Placed.tree Placed.tree)).replace rule =
        .ok (.ofNode (new.map Placed.tree Placed.tree)) := by
  cases node with
  | both left right =>
      obtain _ | ⟨first, rest⟩ := conds
      obtain _ | ⟨second, none⟩ := rest
      cases none
      cases exprs
      refine ⟨.both _ _, rfl, rfl, congrArg₂ CondNode.both first.1 second.1, ?_⟩
      simp only [Cond.ofNode, CondNode.map, Cond.replace, first.2, second.2]
      rfl
  | not condition =>
      obtain _ | ⟨first, none⟩ := conds
      cases none
      cases exprs
      refine ⟨.not _, rfl, rfl, congrArg CondNode.not first.1, ?_⟩
      simp only [Cond.ofNode, CondNode.map, Cond.replace, first.2]
      rfl
  | compare op left right =>
      obtain _ | ⟨first, rest⟩ := exprs
      obtain _ | ⟨second, none⟩ := rest
      cases none
      cases conds
      refine ⟨.compare op _ _, rfl, rfl, congrArg₂ (CondNode.compare op) first.1 second.1, ?_⟩
      simp only [Cond.ofNode, CondNode.map, Cond.replace, first.2, second.2]
      rfl
  | holds relation args =>
      cases conds
      refine ⟨.holds relation values, rfl, rfl, congrArg (CondNode.holds relation) (ids_of_changed exprs), ?_⟩
      have args : Expr.replaceAll rule (args.map Placed.tree) = _ := replaceAll_of_changed exprs
      simp only [Cond.ofNode, CondNode.map, Cond.replace, args]
      rfl
  | true | false | isEmpty =>
      cases exprs
      cases conds
      exact ⟨_, rfl, rfl, rfl, rfl⟩

/-! ## Mappers and rules -/

/-- On nodes of placed trees the mapper gives the answers of a rule on trees. What it puts in their place refers to
trees of an arena. -/
def Mapper.Mirrors (mapper : Mapper ε σ) (arena : Arena) (rule : ExprNode Expr → Except ε (Option (ExprNode Expr))) :
    Prop :=
  ∀ node : ExprNode (Placed Expr), ∃ answer : Except ε (Option (ExprNode (Placed Expr))),
    rule (node.map Placed.tree) = answer.map (Option.map (ExprNode.map Placed.tree)) ∧
    (∀ state, (mapper (node.map Placed.id) state).1 = answer.map (Option.map (ExprNode.map Placed.id))) ∧
    ∀ replacement, answer = .ok (some replacement) →
      ∀ child ∈ replacement.children, arena.exprAt? child.id = some child.tree

namespace Mapper.Mirrors

variable {mapper : Mapper ε σ} {arena : Arena} {node : ExprNode (Placed Expr)} {state next : σ}

theorem failed (mirrors : mapper.Mirrors arena rule)
    (answer : mapper (node.map Placed.id) state = (.error error, next)) :
    rule (node.map Placed.tree) = .error error := by
  obtain ⟨found, isRule, isMapper, _⟩ := mirrors node
  rw [isRule]
  have same := isMapper state
  rw [answer] at same
  rcases found with _ | _ | _ <;> cases same
  rfl

theorem kept (mirrors : mapper.Mirrors arena rule)
    (answer : mapper (node.map Placed.id) state = (.ok none, next)) : rule (node.map Placed.tree) = .ok none := by
  obtain ⟨found, isRule, isMapper, _⟩ := mirrors node
  rw [isRule]
  have same := isMapper state
  rw [answer] at same
  rcases found with _ | _ | _ <;> cases same
  rfl

theorem replaced (mirrors : mapper.Mirrors arena rule) {replacement : ExprNode Nat}
    (answer : mapper (node.map Placed.id) state = (.ok (some replacement), next)) :
    ∃ new : ExprNode (Placed Expr), replacement = new.map Placed.id ∧
      rule (node.map Placed.tree) = .ok (some (new.map Placed.tree)) ∧
      ∀ child ∈ new.children, arena.exprAt? child.id = some child.tree := by
  obtain ⟨found, isRule, isMapper, older⟩ := mirrors node
  have same := isMapper state
  rw [answer] at same
  rcases found with _ | _ | new <;> cases same
  exact ⟨new, rfl, isRule, older new rfl⟩

end Mapper.Mirrors

namespace Arena

variable {arena other : Arena} {edits more : List (Nat × ExprNode Nat)} {id : Nat}

theorem getElem?_edit_congr (sized : arena.exprs.size = other.exprs.size) (same : arena.exprs[id]? = other.exprs[id]?) :
    (arena.edit edits).exprs[id]? = (other.edit edits).exprs[id]? := by
  induction edits generalizing arena other with
  | nil => exact same
  | cons edit edits ih =>
      refine ih ?_ ?_
      · simpa [setExpr] using sized
      · simp only [setExpr, Array.getElem?_setIfInBounds, sized, same]

/-- A node that is replaced once is what it was replaced by. -/
theorem getElem?_edit_replaced {node : ExprNode Nat} (inside : id < arena.exprs.size)
    (others : ∀ edit ∈ edits, edit.1 ≠ id) : (arena.edit ((id, node) :: edits)).exprs[id]? = some node := by
  rw [edit_cons, getElem?_edit others]
  exact Array.getElem?_setIfInBounds_self_of_lt inside

theorem getElem?_edit_left (others : ∀ edit ∈ more, edit.1 ≠ id) :
    (arena.edit (edits ++ more)).exprs[id]? = (arena.edit edits).exprs[id]? := by
  rw [edit_append, getElem?_edit others]

theorem getElem?_edit_right (others : ∀ edit ∈ edits, edit.1 ≠ id) :
    (arena.edit (edits ++ more)).exprs[id]? = (arena.edit more).exprs[id]? := by
  rw [edit_append]
  exact getElem?_edit_congr size_edit (getElem?_edit others)

end Arena

/-! ## Expressions -/

variable {base arena edited : Arena} {first between stop id : Nat} {placed roots more : List (Placed Expr)}

/-- The trees of roots are read wherever the nodes in an interval are as in an edited arena and the older trees are
still there. -/
def Arena.ReadsAs (base edited : Arena) (first stop : Nat) (roots : List (Placed Expr)) : Prop :=
  ∀ after : Arena, after.Extends base →
    (∀ id, first ≤ id → id < stop → after.exprs[id]? = edited.exprs[id]?) →
      ∀ root ∈ roots, ∀ depth, stop ≤ depth → after.exprWithin? depth root.id = some root.tree

namespace Arena.ReadsAs

theorem nil : base.ReadsAs edited first stop [] :=
  fun _ _ _ _ member => absurd member List.not_mem_nil

theorem append (reads : base.ReadsAs edited first between roots) (others : base.ReadsAs edited between stop more)
    (le : first ≤ between) (le' : between ≤ stop) : base.ReadsAs edited first stop (roots ++ more) := by
  intro after extends' same
  refine List.forall_mem_append.2 ⟨fun root member depth deep => ?_, fun root member depth deep => ?_⟩
  · exact reads after extends' (fun id from' until' => same id from' (by omega)) root member depth (by omega)
  · exact others after extends' (fun id from' until' => same id (by omega) until') root member depth deep

theorem congr {other : Arena} (reads : base.ReadsAs edited first stop roots)
    (same : ∀ id, first ≤ id → id < stop → other.exprs[id]? = edited.exprs[id]?) :
    base.ReadsAs other first stop roots :=
  fun after extends' agrees => reads after extends' fun id from' until' =>
    (agrees id from' until').trans (same id from' until')

/-- A node is read if its children are, be they below it in the interval or older. -/
theorem place {node : ExprNode (Placed Expr)} (below : base.ReadsAs edited first id roots)
    (behind : base.exprs.size ≤ first) (le : first ≤ id) (isStored : edited.exprs[id]? = some (node.map Placed.id))
    (children : ∀ child ∈ node.children, child ∈ roots ∨ base.exprAt? child.id = some child.tree) :
    base.ReadsAs edited first (id + 1) [⟨id, .ofNode (node.map Placed.tree)⟩] := by
  intro after extends' same
  refine List.forall_mem_singleton.2 fun depth deep => ?_
  obtain ⟨depth, rfl⟩ : ∃ below, depth = below + 1 := ⟨depth - 1, by omega⟩
  have here : after.exprs[id]? = some (node.map Placed.id) := (same id le (by omega)).trans isStored
  refine exprWithin?_succ_iff.2 ⟨node, here, rfl, fun child member => ?_⟩
  rcases children child member with isBelow | older
  · exact below after extends' (fun other from' until' => same other from' (by omega)) child isBelow depth (by omega)
  · exact extends'.exprWithin? (by omega) older

end Arena.ReadsAs

/-- What becomes of placed trees where the nodes in an interval are as in an edited arena: an error of the rule, or
other trees, which can be read. -/
inductive Arena.Becomes (rule : ExprNode Expr → Except ε (Option (ExprNode Expr))) (base edited : Arena)
    (first stop : Nat) (placed : List (Placed Expr)) : Except ε Unit → Prop where
  | failed {error : ε} (failed : Expr.replaceAll rule (placed.map Placed.tree) = .error error) :
      Becomes rule base edited first stop placed (.error error)
  | changed {roots : List (Placed Expr)} (changed : List.Forall₂ (Placed.Changed (Expr.replace rule)) placed roots)
      (reads : base.ReadsAs edited first stop roots) : Becomes rule base edited first stop placed (.ok ())

namespace Arena.Becomes

variable {result : Except ε Unit}

theorem congr {other : Arena} (becomes : Becomes rule base edited first stop placed result)
    (same : ∀ id, first ≤ id → id < stop → other.exprs[id]? = edited.exprs[id]?) :
    Becomes rule base other first stop placed result := by
  cases becomes with
  | failed failed => exact .failed failed
  | changed changed reads => exact .changed changed (reads.congr same)

/-- With the first root changed, the later ones decide. -/
theorem cons {tree changed : Expr} (ran : tree.replace rule = .ok changed)
    (reads : base.ReadsAs edited first (id + 1) [⟨id, changed⟩]) (le : first ≤ id) (before : id + 1 ≤ stop)
    (later : Becomes rule base edited (id + 1) stop placed result) :
    Becomes rule base edited first stop (⟨id, tree⟩ :: placed) result := by
  cases later with
  | failed failed =>
      refine .failed ?_
      rw [List.map_cons, Expr.replaceAll_cons_ok _ ran, failed]
      rfl
  | changed others readsLater =>
      have first : Placed.Changed (Expr.replace rule) ⟨id, tree⟩ ⟨id, changed⟩ := ⟨rfl, ran⟩
      exact .changed (.cons first others) (reads.append readsLater (by omega) before)

end Arena.Becomes

variable {mapper : Mapper ε σ} {state last : σ} {edits : List (Nat × ExprNode Nat)} {result : Except ε Unit}

/-- After a substitution the roots are what the rule makes of them. -/
theorem Substitutes.becomes (mirrors : mapper.Mirrors base rule) (behind : base.exprs.size ≤ first)
    (holds : arena.Holds first placed stop)
    (substitutes : Substitutes mapper arena (placed.map Placed.id) state edits result last) :
    Arena.Becomes rule base (arena.edit edits) first stop placed result := by
  induction holds generalizing state edits result last with
  | nil =>
      cases substitutes
      exact .changed .nil .nil
  | @cons first id stop node rest below isStored later isBelow isLater =>
      have le := below.le
      have before := later.le
      have inside : id < arena.exprs.size := (Array.getElem?_eq_some_iff.1 isStored).1
      have only {found : ExprNode Nat} (isFound : arena.exprs[id]? = some found) : found = node.map Placed.id :=
        Option.some.inj (isFound.symm.trans isStored)
      cases substitutes with
      | failed isFound answer =>
          cases only isFound
          exact .failed (Expr.replaceAll_cons_error _ (Expr.replace_of_error (mirrors.failed answer)))
      | failedBelow isFound answer substitutes =>
          cases only isFound
          rw [ExprNode.children_map] at substitutes
          cases isBelow behind substitutes with
          | failed failed =>
              refine .failed (Expr.replaceAll_cons_error _ ?_)
              rw [Expr.replace_of_none (mirrors.kept answer), ExprNode.children_map, failed]
              rfl
      | @replaced _ _ _ _ _ _ _ edits _ isFound answer others =>
          cases only isFound
          obtain ⟨new, rfl, answered, older⟩ := mirrors.replaced answer
          have beyond := others.inside_of_holds later
          have here : (arena.edit ((id, new.map Placed.id) :: edits)).exprs[id]? = some (new.map Placed.id) :=
            Arena.getElem?_edit_replaced inside fun edit member => Nat.ne_of_gt (beyond edit member).1
          refine .cons (Expr.replace_of_some answered)
            (Arena.ReadsAs.nil.place behind le here fun child member => .inr (older child member)) le before ?_
          -- The later roots are not touched by what came before.
          exact (isLater (by omega) others).congr fun other from' _ =>
            Arena.getElem?_edit_right (List.forall_mem_singleton.2 (show id ≠ other by omega))
      | @descended _ _ _ _ _ _ _ edits more _ isFound answer substitutes others =>
          cases only isFound
          rw [ExprNode.children_map] at substitutes
          have within := substitutes.inside_of_holds below
          have beyond := others.inside_of_holds later
          cases isBelow behind substitutes with
          | @changed roots changed reads =>
              have untouched (other : Nat) (until' : other ≤ id) :
                  (arena.edit (edits ++ more)).exprs[other]? = (arena.edit edits).exprs[other]? :=
                Arena.getElem?_edit_left fun edit member => by have := beyond edit member; omega
              have here : (arena.edit (edits ++ more)).exprs[id]? = some ((node.withChildren roots).map Placed.id) := by
                rw [untouched id (Nat.le_refl id), ExprNode.ids_withChildren changed, ← isStored]
                exact Arena.getElem?_edit fun edit member => Nat.ne_of_lt (within edit member).2
              have ran := ExprNode.replace_withChildren (mirrors.kept answer) changed
              have readsBelow := reads.congr fun other _ until' => untouched other (Nat.le_of_lt until')
              refine .cons ran (readsBelow.place behind le here fun child member =>
                .inl (ExprNode.mem_of_mem_withChildren member)) le before ?_
              exact (isLater (by omega) others).congr fun other from' _ =>
                Arena.getElem?_edit_right fun edit member => by have := within edit member; omega

/-- An expression that lies in an interval becomes what the rule makes of it. -/
theorem Substitutes.becomes_expr (mirrors : mapper.Mirrors base rule) (extends' : arena.Extends base)
    (behind : base.exprs.size ≤ first) {root : Placed Expr} (holds : arena.Holds first [root] stop)
    (inside : stop ≤ arena.exprs.size) (substitutes : Substitutes mapper arena [root.id] state edits result last) :
    result = (root.tree.replace rule).map (fun _ => ()) ∧
      ∀ tree, root.tree.replace rule = .ok tree → (arena.edit edits).exprAt? root.id = some tree := by
  have within := inside_of_holds holds substitutes
  cases becomes mirrors behind holds substitutes with
  | failed failed =>
      cases ran : root.tree.replace rule with
      | error error =>
          rw [List.map_singleton, Expr.replaceAll_cons_error _ ran] at failed
          cases failed
          exact ⟨rfl, nofun⟩
      | ok tree =>
          rw [List.map_singleton, Expr.replaceAll_cons_ok _ ran] at failed
          cases failed
  | changed changed reads =>
      obtain _ | ⟨⟨sameId, ran⟩, none⟩ := changed
      cases none
      rw [ran]
      refine ⟨rfl, fun tree isTree => ?_⟩
      cases isTree
      rw [← sameId]
      exact reads (arena.edit edits) (extends'.edit fun edit member => Nat.le_trans behind (within edit member).1)
        (fun _ _ _ => rfl) _ List.mem_cons_self _ (Nat.le_trans inside (Nat.le_of_eq Arena.size_edit.symm))

/-! ## Conditions -/

/-- Where the expressions in conditions can be read after they changed, so can the conditions. -/
theorem Arena.HoldsConds.exists_changed {exprs conds lastExpr lastCond : Nat} {roots : List (Placed Cond)}
    {values news : List (Placed Expr)} (holds : arena.HoldsConds exprs conds roots values lastExpr lastCond)
    (changed : List.Forall₂ (Placed.Changed (Expr.replace rule)) values news) {after : Arena}
    (same : after.conds = arena.conds) (reads : ∀ value ∈ news, after.exprAt? value.id = some value.tree) :
    ∃ conditions, List.Forall₂ (Placed.Changed (Cond.replace rule)) roots conditions ∧
      ∀ root ∈ conditions, ∀ depth, lastCond ≤ depth → after.condWithin? depth root.id = some root.tree := by
  induction holds generalizing news with
  | nil => exact ⟨[], .nil, nofun⟩
  | @cons _ _ _ _ id _ lastCond node rest _ _ _ _ isStored later isBelow isLater =>
      have before := later.le
      obtain ⟨direct, others, rfl, changedInside, changedLater⟩ := changed_append changed
      obtain ⟨values, inner, rfl, changedDirect, changedBelow⟩ := changed_append changedInside
      obtain ⟨readsInside, readsLater⟩ := List.forall_mem_append.1 reads
      obtain ⟨readsDirect, readsBelow⟩ := List.forall_mem_append.1 readsInside
      obtain ⟨below, changedConds, readsConds⟩ := isBelow changedBelow readsBelow
      obtain ⟨rest, changedRest, readsRest⟩ := isLater changedLater readsLater
      obtain ⟨new, rfl, rfl, ids, ran⟩ := CondNode.exists_changed changedDirect changedConds
      refine ⟨⟨id, .ofNode (new.map Placed.tree Placed.tree)⟩ :: rest, .cons ⟨rfl, ran⟩ changedRest, ?_⟩
      refine List.forall_mem_cons.2 ⟨fun depth deep => ?_, readsRest⟩
      obtain ⟨depth, rfl⟩ : ∃ below, depth = below + 1 := ⟨depth - 1, by omega⟩
      refine condWithin?_succ_iff.2 ⟨new, ?_, rfl, readsDirect, fun child member => ?_⟩
      · rw [same, isStored, ids]
      · exact readsConds child member depth (by omega)

theorem Substitutes.becomes_cond (mirrors : mapper.Mirrors base rule) (extends' : arena.Extends base)
    {exprs conds lastExpr lastCond : Nat} (behind : base.exprs.size ≤ exprs) {root : Placed Cond}
    (holds : arena.HoldsConds exprs conds [root] placed lastExpr lastCond) (insideExprs : lastExpr ≤ arena.exprs.size)
    (insideConds : lastCond ≤ arena.conds.size)
    (substitutes : Substitutes mapper arena (arena.exprsOfCond root.id) state edits result last) :
    result = (root.tree.replace rule).map (fun _ => ()) ∧
      ∀ tree, root.tree.replace rule = .ok tree → (arena.edit edits).condAt? root.id = some tree := by
  have ids := holds.ids_exprs arena.conds.size insideConds
  have trees := holds.trees_exprs
  rw [List.flatMap_singleton] at ids trees
  rw [Arena.exprsOfCond, ← ids] at substitutes
  have within := substitutes.inside_of_holds holds.holds_exprs
  have ended : (root.tree.replace rule).map (fun _ => ()) = _ := root.tree.ended_replace
  rw [← trees] at ended
  cases substitutes.becomes mirrors behind holds.holds_exprs with
  | failed failed =>
      rw [failed] at ended
      refine ⟨ended.symm, fun tree isTree => ?_⟩
      rw [isTree] at ended
      cases ended
  | @changed news changed reads =>
      rw [replaceAll_of_changed changed] at ended
      refine ⟨ended.symm, fun tree isTree => ?_⟩
      have sameConds : (arena.edit edits).conds = arena.conds := by rw [Arena.edit_eq]
      have kept := extends'.edit fun edit member => Nat.le_trans behind (within edit member).1
      have sameSize : lastExpr ≤ (arena.edit edits).exprs.size := by rw [Arena.size_edit]; exact insideExprs
      obtain ⟨conditions, conds, readsConds⟩ := holds.exists_changed changed sameConds fun value member =>
        reads (arena.edit edits) kept (fun _ _ _ => rfl) value member _ sameSize
      obtain _ | ⟨⟨sameId, ran⟩, none⟩ := conds
      cases none
      cases isTree.symm.trans ran
      rw [← sameId]
      exact readsConds _ List.mem_cons_self _ (by rw [sameConds]; exact insideConds)

end DatalogRam.Ram
