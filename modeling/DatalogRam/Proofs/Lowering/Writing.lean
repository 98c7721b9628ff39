import DatalogRam.Lowering.Draft
import DatalogRam.Proofs.Machine.Run
import DatalogRam.Proofs.Ram.Symbols

/-!
# What writing a draft gives

`Writes ordinal view code tree` says that running `code` gives `tree`, as seen through `view`, or fails if there
is no tree, whatever the draft holds before. The ordinals are those of any table that agrees with the symbols
after the run. The rules below follow the ways in which code is composed, so a step of the lowering is related
to its tree without opening the monad.
-/

namespace DatalogRam.Lowering

open Ram

variable {α β γ δ ε : Type}

/-- What code gives and the draft after it. -/
def outcome (code : Lower α) (draft : Draft) : Except LoweringError α × Draft :=
  code.run.run draft

/-- Building step by step is writing step by step. -/
theorem inArena_bind (build : Build α) (next : α → Build β) :
    inArena (build >>= next) = inArena build >>= fun a => inArena (next a) :=
  rfl

theorem inArena_mapM (build : α → Build β) (elements : List α) :
    inArena (elements.mapM build) = elements.mapM fun element => inArena (build element) := by
  induction elements with
  | nil => rfl
  | cons element rest ih =>
      rw [List.mapM_cons, List.mapM_cons, ← ih]
      rfl

theorem outcome_bind (code : Lower α) (next : α → Lower β) (draft : Draft) :
    outcome (code >>= next) draft =
      match outcome code draft with
      | (.ok a, after) => outcome (next a) after
      | (.error error, after) => (.error error, after) := by
  rw [outcome, run_bind, outcome]
  cases code.run.run draft with
  | mk result after => cases result <;> rfl

/-- What relates the draft before one step to the draft after it, and so on, relates those before and after both. -/
theorem related_bind {related : Draft → Draft → Prop} {code : Lower α} {next : α → Lower β}
    (trans : ∀ {before middle after}, related before middle → related middle after → related before after)
    (first : ∀ draft, related draft (outcome code draft).2)
    (second : ∀ a draft, related draft (outcome (next a) draft).2) (draft : Draft) :
    related draft (outcome (code >>= next) draft).2 := by
  have before := first draft
  rw [outcome_bind]
  cases ran : outcome code draft with
  | mk result after =>
      rw [ran] at before
      cases result with
      | ok a => exact trans before (second a after)
      | error error => exact before

/-- Code that keeps every symbol at its place and every subroutine as it is. -/
structure Retains (code : Lower α) : Prop where
  symbols : ∀ draft, (outcome code draft).2.symbols.Extends draft.symbols
  subroutines : ∀ draft, (outcome code draft).2.subroutines = draft.subroutines

/-- Code that moreover declares no table. -/
structure Keeps (code : Lower α) : Prop extends Retains code where
  tables : ∀ draft, (outcome code draft).2.tables = draft.tables

/-- A tree is the result of code as seen through a view, and there is none if the code fails. The ordinals are those
of the symbols after it. -/
def Gives (ordinal : String → Int64) (view : α → β) (code : Lower α) (tree : Option β) : Prop :=
  ∀ draft, (outcome code draft).2.symbols.Agrees ordinal → (outcome code draft).1.toOption.map view = tree

/-- Code that gives a tree and may declare tables. -/
structure Yields (ordinal : String → Int64) (view : α → β) (code : Lower α) (tree : Option β) : Prop
    extends Retains code where
  gives : Gives ordinal view code tree

/-- Code that gives a tree and declares no table. -/
structure Writes (ordinal : String → Int64) (view : α → β) (code : Lower α) (tree : Option β) : Prop
    extends Keeps code where
  gives : Gives ordinal view code tree

theorem Retains.bind {code : Lower α} {next : α → Lower β} (first : Retains code) (second : ∀ a, Retains (next a)) :
    Retains (code >>= next) where
  symbols :=
    @related_bind _ _ (fun draft last => last.symbols.Extends draft.symbols) _ _ (fun before after => after.trans before)
      first.symbols fun a => (second a).symbols
  subroutines :=
    @related_bind _ _ (fun draft last => last.subroutines = draft.subroutines) _ _
      (fun before after => after.trans before) first.subroutines fun a => (second a).subroutines

theorem Keeps.pure (a : α) : Keeps (pure a : Lower α) where
  symbols := fun draft => Symbols.Extends.refl draft.symbols
  subroutines := fun _ => rfl
  tables := fun _ => rfl

theorem Keeps.throw (error : LoweringError) : Keeps (throw error : Lower α) where
  symbols := fun draft => Symbols.Extends.refl draft.symbols
  subroutines := fun _ => rfl
  tables := fun _ => rfl

theorem Keeps.bind {code : Lower α} {next : α → Lower β} (first : Keeps code)
    (second : ∀ a, Keeps (next a)) : Keeps (code >>= next) where
  toRetains := first.toRetains.bind fun a => (second a).toRetains
  tables :=
    @related_bind _ _ (fun draft last => last.tables = draft.tables) _ _ (fun before after => after.trans before)
      first.tables fun a => (second a).tables

/-- If the rest of the code was reached and gave a result, so did its beginning. -/
theorem of_outcome_bind {code : Lower α} {next : α → Lower β} {draft last : Draft} {b : β}
    (ran : outcome (code >>= next) draft = (.ok b, last)) :
    ∃ a after, outcome code draft = (.ok a, after) ∧ outcome (next a) after = (.ok b, last) := by
  rw [outcome_bind] at ran
  cases first : outcome code draft with
  | mk result after =>
      rw [first] at ran
      cases result with
      | ok a => exact ⟨a, after, rfl, ran⟩
      | error error => cases ran

/-- Where errors are told in other words, success is success. -/
theorem of_outcome_adapt {code : Lower α} {change : LoweringError → LoweringError} {draft last : Draft} {a : α}
    (ran : outcome (ExceptT.adapt change code : Lower α) draft = (.ok a, last)) :
    outcome code draft = (.ok a, last) := by
  have same : outcome (ExceptT.adapt change code : Lower α) draft =
      ((outcome code draft).1.mapError change, (outcome code draft).2) := rfl
  rw [same] at ran
  cases first : outcome code draft with
  | mk result after =>
      rw [first] at ran
      cases result <;> cases ran
      rfl

theorem Keeps.inArena (build : Build α) : Keeps (inArena build) where
  symbols := fun draft => Symbols.Extends.refl draft.symbols
  subroutines := fun _ => rfl
  tables := fun _ => rfl

theorem Keeps.tryInArena (build : ExceptT LoweringError Build α) : Keeps (tryInArena build) := by
  refine (Keeps.inArena build.run).bind fun result => ?_
  cases result with
  | ok a => exact Keeps.pure a
  | error error => exact Keeps.throw error

theorem outcome_tryInArena {build : ExceptT LoweringError Build α} {draft : Draft} {result : Except LoweringError α}
    {arena : Arena} (ran : build.run.run draft.arena = (result, arena)) :
    outcome (tryInArena build) draft = (result, { draft with arena := arena }) := by
  have built : outcome (Lowering.inArena build.run) draft =
      (.ok (build.run.run draft.arena).1, { draft with arena := (build.run.run draft.arena).2 }) := rfl
  rw [tryInArena, outcome_bind, built, ran]
  cases result <;> rfl

theorem Keeps.lift (result : Except LoweringError α) : Keeps (liftExcept result : Lower α) := by
  cases result with
  | ok a => exact Keeps.pure a
  | error error => exact Keeps.throw error

/-- Errors may be told in other words. -/
theorem Keeps.adapt {code : Lower α} (change : LoweringError → LoweringError) (keeps : Keeps code) :
    Keeps (ExceptT.adapt change code : Lower α) := by
  have same (draft : Draft) : outcome (ExceptT.adapt change code : Lower α) draft =
      ((outcome code draft).1.mapError change, (outcome code draft).2) := rfl
  constructor
  · constructor
    · intro draft
      rw [same]
      exact keeps.symbols draft
    · intro draft
      rw [same]
      exact keeps.subroutines draft
  · intro draft
    rw [same]
    exact keeps.tables draft

theorem Keeps.mapM {code : γ → Lower α} (elements : List γ) (each : ∀ element ∈ elements, Keeps (code element)) :
    Keeps (elements.mapM code) := by
  induction elements with
  | nil => exact Keeps.pure []
  | cons element rest ih =>
      rw [List.mapM_cons]
      refine (each element List.mem_cons_self).bind fun a => ?_
      exact (ih fun other member => each other (List.mem_cons_of_mem _ member)).bind fun more =>
        Keeps.pure (a :: more)

/-- The next step may rely on the draft that the first one leaves behind. -/
theorem Gives.bindReached {ordinal : String → Int64} {view : α → β} {code : Lower α} {tree : Option β}
    {view' : γ → δ} {next : α → Lower γ} {rest : β → Option δ} (first : Gives ordinal view code tree)
    (grows : ∀ a, Retains (next a))
    (second : ∀ start a after, outcome code start = (.ok a, after) →
      (outcome (next a) after).2.symbols.Agrees ordinal →
        (outcome (next a) after).1.toOption.map view' = rest (view a)) :
    Gives ordinal view' (code >>= next) (tree >>= rest) := by
  intro draft agrees
  have given := first draft
  rw [outcome_bind] at agrees ⊢
  cases ran : outcome code draft with
  | mk result after =>
      rw [ran] at given agrees
      cases result with
      | ok a =>
          have here : some (view a) = tree := given (agrees.of_extends ((grows a).symbols after))
          rw [← here]
          exact second draft a after ran agrees
      | error error =>
          have here : none = tree := given agrees
          rw [← here]
          rfl

namespace Writes

variable {ordinal : String → Int64} {view : α → β}

theorem pure (a : α) : Writes ordinal view (pure a) (some (view a)) where
  toKeeps := Keeps.pure a
  gives := fun _ _ => rfl

theorem throw (error : LoweringError) : Writes ordinal view (throw error) none where
  toKeeps := Keeps.throw error
  gives := fun _ _ => rfl

/-- The next step may rely on the draft that the first one leaves behind. -/
theorem bindReached {code : Lower α} {tree : Option β} {view' : γ → δ} {next : α → Lower γ} {rest : β → Option δ}
    (first : Writes ordinal view code tree) (keeps : ∀ a, Keeps (next a))
    (second : ∀ start a after, outcome code start = (.ok a, after) →
      (outcome (next a) after).2.symbols.Agrees ordinal →
        (outcome (next a) after).1.toOption.map view' = rest (view a)) :
    Writes ordinal view' (code >>= next) (tree >>= rest) where
  toKeeps := first.toKeeps.bind keeps
  gives := first.gives.bindReached (fun a => (keeps a).toRetains) second

theorem bind {code : Lower α} {tree : Option β} {view' : γ → δ} {next : α → Lower γ} {rest : β → Option δ}
    (first : Writes ordinal view code tree)
    (second : ∀ a b, view a = b → Writes ordinal view' (next a) (rest b)) :
    Writes ordinal view' (code >>= next) (tree >>= rest) :=
  first.bindReached (fun a => (second a _ rfl).toKeeps) fun _ a after _ agrees => (second a _ rfl).gives after agrees

/-- If there is a tree whatever the ordinals are, running the code gives it. -/
theorem exists_ok {code : Lower α} {tree : (String → Int64) → Option β}
    (writes : ∀ ordinal, Writes ordinal view code (tree ordinal)) (isSome : ∀ ordinal, (tree ordinal).isSome)
    (draft : Draft) :
    ∃ a last, outcome code draft = (.ok a, last) ∧
      ∀ ordinal, last.symbols.Agrees ordinal → tree ordinal = some (view a) := by
  have gives := fun ordinal => (writes ordinal).gives draft
  cases ran : outcome code draft with
  | mk result last =>
      rw [ran] at gives
      cases result with
      | ok a => exact ⟨a, last, rfl, fun ordinal agrees => (gives ordinal agrees).symm⟩
      | error error =>
          have missing := isSome last.symbols.ordinal
          rw [← gives _ (Symbols.agrees_ordinal last.symbols)] at missing
          cases missing

theorem inArena {build : Build α} {tree : β} (built : ∀ arena, view (build.run arena).1 = tree) :
    Writes ordinal view (inArena build) (some tree) where
  toKeeps := Keeps.inArena build
  gives := fun draft _ => congrArg some (built draft.arena)

/-- Building in the arena always gives the same tree. -/
theorem build {step : Build α} {given : β} {view' : γ → δ} {next : α → Lower γ} {tree : Option δ}
    (first : ∀ arena, view (step.run arena).1 = given)
    (second : ∀ a, view a = given → Writes ordinal view' (next a) tree) :
    Writes ordinal view' (Lowering.inArena step >>= next) tree := by
  have after (draft : Draft) : outcome (Lowering.inArena step >>= next) draft =
      outcome (next (step.run draft.arena).1) { draft with arena := (step.run draft.arena).2 } := rfl
  have rest (draft : Draft) := second _ (first draft.arena)
  refine ⟨⟨⟨?symbols, ?subroutines⟩, ?tables⟩, ?gives⟩
  case symbols =>
    intro draft
    rw [after]
    exact (rest draft).symbols _
  case subroutines =>
    intro draft
    rw [after]
    exact (rest draft).subroutines _
  case tables =>
    intro draft
    rw [after]
    exact (rest draft).tables _
  case gives =>
    intro draft agrees
    rw [after] at agrees ⊢
    exact (rest draft).gives _ agrees

theorem buildSome {step : Build α} {given : β} (built : ∀ arena, view (step.run arena).1 = given) :
    Writes ordinal (Option.map view) (Lowering.inArena step >>= fun a => Pure.pure (some a))
      (some (some given)) :=
  build built fun a isGiven => isGiven ▸ pure (some a)

theorem inSome {code : Lower α} {tree : Option β} (writes : Writes ordinal view code tree) :
    Writes ordinal (Option.map view) (some <$> code) (tree.map some) := by
  rw [← bind_pure_comp, Option.map_eq_bind]
  refine writes.bind ?_
  rintro a _ rfl
  exact pure (some a)

/-- A step that has no result but its effect. -/
theorem andThen {code : Lower Unit} {view' : γ → δ} {next : Unit → Lower γ} {tree : Option δ}
    (first : Writes ordinal id code (some ())) (second : Writes ordinal view' (next ()) tree) :
    Writes ordinal view' (code >>= next) tree :=
  first.bind fun _ _ _ => second

theorem lift (result : Except LoweringError α) :
    Writes ordinal view (liftExcept result) (result.toOption.map view) := by
  cases result with
  | ok a => exact pure a
  | error error => exact throw error

/-- Errors may be told in other words. -/
theorem adapt {code : Lower α} {tree : Option β} (change : LoweringError → LoweringError)
    (writes : Writes ordinal view code tree) :
    Writes ordinal view (ExceptT.adapt change code : Lower α) tree where
  toKeeps := writes.toKeeps.adapt change
  gives := by
    intro draft agrees
    rw [← writes.gives draft agrees]
    change ((outcome code draft).1.mapError change).toOption.map view = _
    cases (outcome code draft).1 <;> rfl

theorem report (level : Level) (message : String) (fields : List (String × String)) :
    Writes ordinal id (report level message fields) (some ()) where
  symbols := fun draft => Symbols.Extends.refl draft.symbols
  subroutines := fun _ => rfl
  tables := fun _ => rfl
  gives := fun _ _ => rfl

theorem encodeSymbol (text : String) : Writes ordinal id (encodeSymbol text) (some (ordinal text)) where
  symbols := fun draft => draft.symbols.encode_extends text
  subroutines := fun _ => rfl
  tables := fun _ => rfl
  gives := fun _ agrees => congrArg some (Symbols.agrees_encode agrees)

theorem mapM {code : γ → Lower α} {tree : γ → Option β} (elements : List γ)
    (each : ∀ element ∈ elements, Writes ordinal view (code element) (tree element)) :
    Writes ordinal (List.map view) (elements.mapM code) (elements.mapM tree) := by
  induction elements with
  | nil => exact pure []
  | cons element rest ih =>
      rw [List.mapM_cons, List.mapM_cons]
      refine (each element List.mem_cons_self).bind ?_
      rintro a _ rfl
      refine (ih fun other member => each other (List.mem_cons_of_mem _ member)).bind ?_
      rintro more _ rfl
      exact pure (a :: more)

theorem map {code : γ → Lower α} {tree : γ → β} (elements : List γ)
    (each : ∀ element ∈ elements, Writes ordinal view (code element) (some (tree element))) :
    Writes ordinal (List.map view) (elements.mapM code) (some (elements.map tree)) := by
  have all : elements.mapM (fun element => some (tree element)) = some (elements.map tree) :=
    List.mapM_pure
  rw [← all]
  exact mapM elements each

theorem filterMapM {code : γ → Lower (Option α)} {tree : γ → Option (Option β)} (elements : List γ)
    (each : ∀ element ∈ elements, Writes ordinal (Option.map view) (code element) (tree element)) :
    Writes ordinal (List.map view) (elements.filterMapM code) (elements.filterMapM tree) := by
  induction elements with
  | nil => exact pure []
  | cons element rest ih =>
      rw [List.filterMapM_cons, List.filterMapM_cons]
      refine (each element List.mem_cons_self).bind ?_
      rintro found _ rfl
      cases found with
      | none => exact ih fun other member => each other (List.mem_cons_of_mem _ member)
      | some a =>
          refine (ih fun other member => each other (List.mem_cons_of_mem _ member)).bind ?_
          rintro more _ rfl
          exact pure (a :: more)

theorem foldrM {code : γ → α → Lower α} {tree : γ → β → Option β} (elements : List γ)
    (each : ∀ element ∈ elements, ∀ a, Writes ordinal view (code element a) (tree element (view a)))
    (start : α) : Writes ordinal view (elements.foldrM code start) (elements.foldrM tree (view start)) := by
  induction elements with
  | nil => exact pure start
  | cons element rest ih =>
      rw [List.foldrM_cons, List.foldrM_cons]
      refine (ih fun other member => each other (List.mem_cons_of_mem _ member)).bind ?_
      rintro a _ rfl
      exact each element List.mem_cons_self a

end Writes

/-! ## Declaring tables -/

namespace Yields

variable {ordinal : String → Int64} {view : α → β}

theorem of_writes {code : Lower α} {tree : Option β} (writes : Writes ordinal view code tree) :
    Yields ordinal view code tree where
  toRetains := writes.toRetains
  gives := writes.gives

theorem bind {code : Lower α} {tree : Option β} {view' : γ → δ} {next : α → Lower γ} {rest : β → Option δ}
    (first : Yields ordinal view code tree) (second : ∀ a b, view a = b → Yields ordinal view' (next a) (rest b)) :
    Yields ordinal view' (code >>= next) (tree >>= rest) where
  toRetains := first.toRetains.bind fun a => (second a _ rfl).toRetains
  gives := first.gives.bindReached (fun a => (second a _ rfl).toRetains) fun _ a after _ agrees =>
    (second a _ rfl).gives after agrees

/-- A step that has no result but its effect. -/
theorem andThen {code : Lower Unit} {view' : γ → δ} {next : Unit → Lower γ} {tree : Option δ}
    (first : Yields ordinal id code (some ())) (second : Yields ordinal view' (next ()) tree) :
    Yields ordinal view' (code >>= next) tree :=
  first.bind fun _ _ _ => second

theorem mapM {code : γ → Lower α} {tree : γ → Option β} (elements : List γ)
    (each : ∀ element ∈ elements, Yields ordinal view (code element) (tree element)) :
    Yields ordinal (List.map view) (elements.mapM code) (elements.mapM tree) := by
  induction elements with
  | nil => exact of_writes (Writes.pure [])
  | cons element rest ih =>
      rw [List.mapM_cons, List.mapM_cons]
      refine (each element List.mem_cons_self).bind ?_
      rintro a _ rfl
      refine (ih fun other member => each other (List.mem_cons_of_mem _ member)).bind ?_
      rintro more _ rfl
      exact of_writes (Writes.pure (a :: more))

theorem forM {code : γ → Lower Unit} {tree : γ → Option Unit} (elements : List γ)
    (each : ∀ element ∈ elements, Yields ordinal id (code element) (tree element)) :
    Yields ordinal id (elements.forM code) (elements.forM tree) := by
  induction elements with
  | nil => exact of_writes (Writes.pure ())
  | cons element rest ih =>
      change Yields ordinal id (code element >>= fun _ => rest.forM code)
        (tree element >>= fun _ => rest.forM tree)
      refine (each element List.mem_cons_self).bind ?_
      rintro _ _ rfl
      exact ih fun other member => each other (List.mem_cons_of_mem _ member)

theorem declareTable (table : Table) : Yields ordinal id (declareTable table) (some ()) where
  symbols := by
    intro draft
    change Symbols.Extends (Draft.symbols (if _ then _ else _)) _
    split <;> exact Symbols.Extends.refl draft.symbols
  subroutines := by
    intro draft
    change Draft.subroutines (if _ then _ else _) = _
    split <;> rfl
  gives := fun _ _ => rfl

end Yields

end DatalogRam.Lowering
