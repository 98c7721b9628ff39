import DatalogRam.Proofs.Ram.Layout

/-!
# Substitution from the root down

A mapper is offered nodes and answers with another node, with nothing, or with an error. `Substitutes` says which
nodes it is offered and in which order, on an arena that does not change meanwhile: a node that it replaces is not
descended into, and its first error ends everything. The walk of `replaceExpr` changes the arena as it goes. Where no
node is shared it comes to the same, since a changed node is never visited again.
-/

namespace DatalogRam.Ram

/-- What a rule does with a node and with a state of its own. -/
abbrev Mapper (ε σ : Type) :=
  ExprNode Nat → σ → Except ε (Option (ExprNode Nat)) × σ

/-- The mapper as a rule for the walk. -/
def Mapper.rule {ε σ : Type} (mapper : Mapper ε σ) (node : ExprNode Nat) :
    ExceptT ε (StateT σ Build) (Option (ExprNode Nat)) :=
  ExceptT.mk fun state => pure (mapper node state)

/-- The nodes that a mapper puts in the place of others below some roots, one after another, and how it ends. -/
inductive Substitutes {ε σ : Type} (mapper : Mapper ε σ) (arena : Arena) :
    List Nat → σ → List (Nat × ExprNode Nat) → Except ε Unit → σ → Prop where
  | nil {state : σ} : Substitutes mapper arena [] state [] (.ok ()) state
  | replaced {id : Nat} {ids : List Nat} {node replacement : ExprNode Nat} {state next last : σ}
      {edits : List (Nat × ExprNode Nat)} {result : Except ε Unit} (isStored : arena.exprs[id]? = some node)
      (answer : mapper node state = (.ok (some replacement), next))
      (rest : Substitutes mapper arena ids next edits result last) :
      Substitutes mapper arena (id :: ids) state ((id, replacement) :: edits) result last
  | descended {id : Nat} {ids : List Nat} {node : ExprNode Nat} {state next between last : σ}
      {edits more : List (Nat × ExprNode Nat)} {result : Except ε Unit} (isStored : arena.exprs[id]? = some node)
      (answer : mapper node state = (.ok none, next))
      (below : Substitutes mapper arena node.children next edits (.ok ()) between)
      (rest : Substitutes mapper arena ids between more result last) :
      Substitutes mapper arena (id :: ids) state (edits ++ more) result last
  | failedBelow {id : Nat} {ids : List Nat} {node : ExprNode Nat} {state next last : σ}
      {edits : List (Nat × ExprNode Nat)} {error : ε} (isStored : arena.exprs[id]? = some node)
      (answer : mapper node state = (.ok none, next))
      (below : Substitutes mapper arena node.children next edits (.error error) last) :
      Substitutes mapper arena (id :: ids) state edits (.error error) last
  | failed {id : Nat} {ids : List Nat} {node : ExprNode Nat} {state last : σ} {error : ε}
      (isStored : arena.exprs[id]? = some node) (answer : mapper node state = (.error error, last)) :
      Substitutes mapper arena (id :: ids) state [] (.error error) last

/-! ## Edits -/

namespace Arena

/-- Put nodes in the place of others, one after another. -/
def edit (arena : Arena) (edits : List (Nat × ExprNode Nat)) : Arena :=
  edits.foldl (fun arena edit => arena.setExpr edit.1 edit.2) arena

variable {arena before : Arena} {edits more : List (Nat × ExprNode Nat)} {id : Nat}

@[simp] theorem edit_cons (edit : Nat × ExprNode Nat) :
    arena.edit (edit :: edits) = (arena.setExpr edit.1 edit.2).edit edits :=
  rfl

theorem edit_append : arena.edit (edits ++ more) = (arena.edit edits).edit more :=
  List.foldl_append

@[simp] theorem size_edit : (arena.edit edits).exprs.size = arena.exprs.size := by
  induction edits generalizing arena with
  | nil => rfl
  | cons edit edits ih => rw [edit_cons, ih, setExpr, Array.size_setIfInBounds]

/-- Nodes that are not replaced stay what they are. -/
theorem getElem?_edit (others : ∀ edit ∈ edits, edit.1 ≠ id) : (arena.edit edits).exprs[id]? = arena.exprs[id]? := by
  induction edits generalizing arena with
  | nil => rfl
  | cons edit edits ih =>
      obtain ⟨other, rest⟩ := List.forall_mem_cons.1 others
      rw [edit_cons, ih rest, setExpr, Array.getElem?_setIfInBounds_ne other]

theorem edit_eq : arena.edit edits = { arena with exprs := (arena.edit edits).exprs } := by
  induction edits generalizing arena with
  | nil => rfl
  | cons edit edits ih => rw [edit_cons, ih, setExpr]

/-- Nodes behind those of another arena may be replaced. -/
theorem Extends.edit (extends' : arena.Extends before) (behind : ∀ edit ∈ edits, before.exprs.size ≤ edit.1) :
    (arena.edit edits).Extends before := by
  refine ⟨fun {id} node found => ?_, fun found => ?_, fun found => ?_, fun found => ?_⟩
  · have inside := (Array.getElem?_eq_some_iff.1 found).1
    rw [getElem?_edit fun edit member => by have := behind edit member; omega]
    exact extends'.exprs found
  · rw [edit_eq]
    exact extends'.conds found
  · rw [edit_eq]
    exact extends'.ops found
  · rw [edit_eq]
    exact extends'.stmts found

end Arena

namespace Substitutes

variable {ε σ : Type} {mapper : Mapper ε σ} {arena : Arena} {ids : List Nat} {state last : σ}
  {edits : List (Nat × ExprNode Nat)} {result : Except ε Unit}

/-- Only nodes at the roots or below them are replaced. -/
theorem exists_reaches (substitutes : Substitutes mapper arena ids state edits result last) :
    ∀ edit ∈ edits, ∃ root ∈ ids, arena.Reaches ⟨.expr, root⟩ ⟨.expr, edit.1⟩ := by
  have fromChild {id : Nat} {node : ExprNode Nat} (isStored : arena.exprs[id]? = some node) {target : Nat}
      (below : ∃ root ∈ node.children, arena.Reaches ⟨.expr, root⟩ ⟨.expr, target⟩) :
      arena.Reaches ⟨.expr, id⟩ ⟨.expr, target⟩ := by
    obtain ⟨child, member, reaches⟩ := below
    refine .head ?_ reaches
    rw [Arena.children, isStored]
    exact List.mem_map_of_mem member
  have fromRest {id target : Nat} {ids : List Nat}
      (rest : ∃ root ∈ ids, arena.Reaches ⟨.expr, root⟩ ⟨.expr, target⟩) :
      ∃ root ∈ id :: ids, arena.Reaches ⟨.expr, root⟩ ⟨.expr, target⟩ :=
    rest.imp fun _ found => ⟨List.mem_cons_of_mem _ found.1, found.2⟩
  induction substitutes with
  | nil | failed => exact fun _ member => absurd member List.not_mem_nil
  | replaced isStored _ _ ih =>
      exact List.forall_mem_cons.2 ⟨⟨_, List.mem_cons_self, .refl⟩, fun edit member => fromRest (ih edit member)⟩
  | descended isStored _ _ _ isBelow isRest =>
      intro edit member
      rcases List.mem_append.1 member with inBelow | inRest
      · exact ⟨_, List.mem_cons_self, fromChild isStored (isBelow edit inBelow)⟩
      · exact fromRest (isRest edit inRest)
  | failedBelow isStored _ _ isBelow =>
      exact fun edit member => ⟨_, List.mem_cons_self, fromChild isStored (isBelow edit member)⟩

/-- Where the roots lie in an interval, so do the nodes that are replaced. -/
theorem inside_of_holds {first stop : Nat} {placed : List (Placed Expr)} (holds : arena.Holds first placed stop)
    (substitutes : Substitutes mapper arena (placed.map Placed.id) state edits result last) :
    ∀ edit ∈ edits, first ≤ edit.1 ∧ edit.1 < stop := by
  intro edit member
  obtain ⟨_, isRoot, reaches⟩ := substitutes.exists_reaches edit member
  obtain ⟨root, isPlaced, rfl⟩ := List.mem_map.1 isRoot
  exact (holds.inside_of_reaches root isPlaced _ reaches).2

end Substitutes

/-! ## Running the walk -/

/-- A way to run code that may fail, keeps a state of its own, and reads and changes an arena. -/
structure Runner (m : Type → Type) [Monad m] [MonadStateOf Arena m] (ε σ : Type) where
  run : {α : Type} → m α → σ → Arena → (Except ε α × σ) × Arena
  run_pure : ∀ {α : Type} (value : α) (state : σ) (arena : Arena),
    run (pure value) state arena = ((.ok value, state), arena)
  run_bind : ∀ {α β : Type} (code : m α) (next : α → m β) (state : σ) (arena : Arena),
    run (code >>= next) state arena =
      match run code state arena with
      | ((.ok value, state), arena) => run (next value) state arena
      | ((.error error, state), arena) => ((.error error, state), arena)
  run_get : ∀ (state : σ) (arena : Arena), run (getThe Arena) state arena = ((.ok arena, state), arena)
  run_modify : ∀ (f : Arena → Arena) (state : σ) (arena : Arena),
    run (modifyThe Arena f) state arena = ((.ok (), state), f arena)

namespace Runner

/-- Running with a state of its own and errors that do not undo anything. -/
def recording (ε σ : Type) : Runner (ExceptT ε (StateT σ Build)) ε σ where
  run code state arena := (code.run.run state).run arena
  run_pure _ _ _ := rfl
  run_bind code next state arena := by
    rw [ExceptT.run_bind, StateT.run_bind, StateT.run_bind]
    rcases (code.run.run state).run arena with ⟨⟨_ | _, _⟩, _⟩ <;> rfl
  run_get _ _ := rfl
  run_modify _ _ _ := rfl

/-- Running without a state of its own. -/
def plain (ε : Type) : Runner (ExceptT ε Build) ε Unit where
  run code _ arena := (((code.run.run arena).1, ()), (code.run.run arena).2)
  run_pure _ _ _ := rfl
  run_bind code next _ arena := by
    rw [ExceptT.run_bind, StateT.run_bind]
    rcases code.run.run arena with ⟨_ | _, _⟩ <;> rfl
  run_get _ _ := rfl
  run_modify _ _ _ := rfl

variable {m : Type → Type} [Monad m] [MonadStateOf Arena m] {ε σ : Type} (runner : Runner m ε σ)

/-- The rule does what the mapper says and leaves the arena alone. -/
def Follows (rule : ExprNode Nat → m (Option (ExprNode Nat))) (mapper : Mapper ε σ) : Prop :=
  ∀ node state arena, runner.run (rule node) state arena = (mapper node state, arena)

theorem follows_recording (mapper : Mapper ε σ) : (recording ε σ).Follows mapper.rule mapper :=
  fun _ _ _ => rfl

variable {runner} {rule : ExprNode Nat → m (Option (ExprNode Nat))} {mapper : Mapper ε σ} {base arena : Arena}
  {first stop : Nat} {placed : List (Placed Expr)}

theorem run_replaceWithin (follows : runner.Follows rule mapper) {node : ExprNode Nat} {id : Nat}
    (isStored : arena.exprs[id]? = some node) (depth : Nat) (state : σ) :
    runner.run (replaceWithin rule (depth + 1) id) state arena =
      match mapper node state with
      | (.ok (some replacement), next) => ((.ok (), next), arena.setExpr id replacement)
      | (.ok none, next) => runner.run (node.children.forM (replaceWithin rule depth)) next arena
      | (.error error, next) => ((.error error, next), arena) := by
  rw [replaceWithin, runner.run_bind, runner.run_get]
  simp only [isStored]
  rw [runner.run_bind, follows]
  rcases mapper node state with ⟨_ | _ | _, next⟩
  · rfl
  · rfl
  · exact runner.run_modify _ _ _

/-- Where the roots lie one after another, walking through them replaces what the mapper replaces below them. -/
theorem exists_substitutes (follows : runner.Follows rule mapper) (holds : base.Holds first placed stop)
    (walk : Nat → m Unit) {size : Nat} (walks : ∀ id state arena, arena.exprs.size = size → ∃ depth, stop ≤ depth ∧
      runner.run (walk id) state arena = runner.run (replaceWithin rule depth id) state arena)
    (state : σ) (sized : arena.exprs.size = size)
    (same : ∀ id, first ≤ id → id < stop → arena.exprs[id]? = base.exprs[id]?) :
    ∃ edits result last, Substitutes mapper base (placed.map Placed.id) state edits result last ∧
      runner.run ((placed.map Placed.id).forM walk) state arena = ((result, last), arena.edit edits) := by
  induction holds generalizing walk state arena with
  | nil => exact ⟨[], .ok (), state, .nil, runner.run_pure _ _ _⟩
  | @cons first id stop node rest below isStored later isBelow isLater =>
      have behind := below.le
      have before := later.le
      have here : arena.exprs[id]? = some (node.map Placed.id) := (same id behind (by omega)).trans isStored
      obtain ⟨depth, deep, walked⟩ := walks id state arena sized
      obtain ⟨depth, rfl⟩ : ∃ below, depth = below + 1 := ⟨depth - 1, by omega⟩
      rw [run_replaceWithin follows here] at walked
      have goesOn : runner.run ((id :: rest.map Placed.id).forM walk) state arena = _ :=
        runner.run_bind (walk id) (fun _ => (rest.map Placed.id).forM walk) state arena
      -- What was replaced so far lies before the later roots, which are still as they were.
      have kept {edits : List (Nat × ExprNode Nat)} (done : ∀ edit ∈ edits, edit.1 ≤ id) (other : Nat)
          (from' : id + 1 ≤ other) (until' : other < stop) :
          (arena.edit edits).exprs[other]? = base.exprs[other]? :=
        (Arena.getElem?_edit fun edit member => by have := done edit member; omega).trans
          (same other (by omega) until')
      rw [List.map_cons, goesOn, walked]
      rcases answer : mapper (node.map Placed.id) state with ⟨error | found | replacement, next⟩
      · exact ⟨[], .error error, next, .failed isStored answer, rfl⟩
      · obtain ⟨edits, result, last, substitutes, ran⟩ := isBelow (replaceWithin rule depth)
          (fun _ _ _ _ => ⟨depth, by omega, rfl⟩) next sized fun other from' until' => same other from' (by omega)
        have within := substitutes.inside_of_holds below
        rw [← ExprNode.children_map] at substitutes ran
        simp only [ran]
        cases result with
        | error error => exact ⟨edits, .error error, last, .failedBelow isStored answer substitutes, rfl⟩
        | ok =>
            obtain ⟨more, result, final, others, ranOn⟩ := isLater walk walks last (Arena.size_edit.trans sized)
              (kept fun edit member => Nat.le_of_lt (within edit member).2)
            refine ⟨edits ++ more, result, final, .descended isStored answer substitutes others, ?_⟩
            simp only [ranOn, Arena.edit_append]
      · obtain ⟨edits, result, last, substitutes, ranOn⟩ := isLater walk walks next (Arena.size_edit.trans sized)
          (kept (List.forall_mem_singleton.2 (show (id, replacement).1 ≤ id from Nat.le_refl id)))
        exact ⟨(id, replacement) :: edits, result, last, .replaced isStored answer substitutes, ranOn⟩

/-- Replacing nodes of an expression looks as deep as there are nodes. -/
theorem run_replaceExpr (id : Nat) (state : σ) (arena : Arena) :
    runner.run (replaceExpr rule id) state arena = runner.run (replaceWithin rule arena.exprs.size id) state arena := by
  rw [replaceExpr, runner.run_bind, runner.run_get]

theorem run_replaceCond (id : Nat) (state : σ) (arena : Arena) :
    runner.run (replaceCond rule id) state arena =
      runner.run ((arena.exprsOfCond id).forM (replaceExpr rule)) state arena := by
  rw [replaceCond, runner.run_bind, runner.run_get]

/-- The walk through expressions that lie one after another. -/
theorem exists_substitutes_forM (follows : runner.Follows rule mapper) (holds : arena.Holds first placed stop)
    (inside : stop ≤ arena.exprs.size) (state : σ) :
    ∃ edits result last, Substitutes mapper arena (placed.map Placed.id) state edits result last ∧
      runner.run ((placed.map Placed.id).forM (replaceExpr rule)) state arena =
        ((result, last), arena.edit edits) :=
  exists_substitutes follows holds (replaceExpr rule)
    (fun id state other same => ⟨other.exprs.size, by omega, run_replaceExpr id state other⟩) state rfl fun _ _ _ => rfl

/-- The walk through an expression that lies in an interval. -/
theorem exists_substitutes_expr (follows : runner.Follows rule mapper) {root : Placed Expr}
    (holds : arena.Holds first [root] stop) (inside : stop ≤ arena.exprs.size) (state : σ) :
    ∃ edits result last, Substitutes mapper arena [root.id] state edits result last ∧
      runner.run (replaceExpr rule root.id) state arena = ((result, last), arena.edit edits) := by
  obtain ⟨edits, result, last, substitutes, ran⟩ := exists_substitutes_forM follows holds inside state
  refine ⟨edits, result, last, substitutes, ?_⟩
  have alone : runner.run ([root.id].forM (replaceExpr rule)) state arena = _ :=
    runner.run_bind (replaceExpr rule root.id) (fun _ => pure ()) state arena
  rw [← ran, List.map_singleton, alone]
  rcases runner.run (replaceExpr rule root.id) state arena with ⟨⟨_ | _, _⟩, _⟩
  · rfl
  · exact (runner.run_pure _ _ _).symm

/-- The walk through the expressions of a condition that lies in an interval. -/
theorem exists_substitutes_cond (follows : runner.Follows rule mapper) {root : Placed Cond}
    {exprs conds lastExpr lastCond : Nat} (holds : arena.HoldsConds exprs conds [root] placed lastExpr lastCond)
    (insideExprs : lastExpr ≤ arena.exprs.size) (insideConds : lastCond ≤ arena.conds.size) (state : σ) :
    ∃ edits result last, Substitutes mapper arena (arena.exprsOfCond root.id) state edits result last ∧
      runner.run (replaceCond rule root.id) state arena = ((result, last), arena.edit edits) := by
  have ids := holds.ids_exprs arena.conds.size insideConds
  rw [List.flatMap_singleton] at ids
  rw [run_replaceCond, Arena.exprsOfCond, ← ids]
  exact exists_substitutes_forM follows holds.holds_exprs insideExprs state

end Runner

end DatalogRam.Ram
