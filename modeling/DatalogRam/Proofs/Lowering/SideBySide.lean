import Mathlib.Data.List.Forall2
import DatalogRam.Proofs.Lowering.Writing

/-!
# Runs side by side

Two runs go side by side if they start in states that match, and end in states that match with results that agree:
both succeed, with results that are related, or both fail with the same error. The rules below follow the ways in
which code is composed.
-/

namespace DatalogRam.Lowering

open Ram

/-- Both results are values that are related, or both are the same error. -/
inductive Agreeing {ε α β : Type} (related : α → β → Prop) : Except ε α → Except ε β → Prop where
  | ok {a : α} {b : β} (isRelated : related a b) : Agreeing related (.ok a) (.ok b)
  | error (error : ε) : Agreeing related (.error error) (.error error)

namespace Agreeing

variable {ε α β : Type} {related : α → β → Prop} {first : Except ε α} {second : Except ε β}

theorem map {γ δ : Type} {alsoRelated : γ → δ → Prop} {f : α → γ} {g : β → δ} (agreeing : Agreeing related first second)
    (maps : ∀ a b, related a b → alsoRelated (f a) (g b)) : Agreeing alsoRelated (first.map f) (second.map g) := by
  cases agreeing with
  | ok isRelated => exact .ok (maps _ _ isRelated)
  | error error => exact .error error

theorem mono {weaker : α → β → Prop} (agreeing : Agreeing related first second)
    (weaken : ∀ a b, related a b → weaker a b) : Agreeing weaker first second := by
  cases agreeing with
  | ok isRelated => exact .ok (weaken _ _ isRelated)
  | error error => exact .error error

theorem mapError {ε' : Type} (change : ε → ε') (agreeing : Agreeing related first second) :
    Agreeing related (first.mapError change) (second.mapError change) := by
  cases agreeing with
  | ok isRelated => exact .ok isRelated
  | error error => exact .error (change error)

end Agreeing

/-- Two runs that agree, whatever they start with. -/
def SideBySide {ε σ α β : Type} (matching : σ → σ → Prop) (related : α → β → Prop) (first : ExceptT ε (StateM σ) α)
    (second : ExceptT ε (StateM σ) β) : Prop :=
  ∀ left right, matching left right →
    Agreeing related (first.run.run left).1 (second.run.run right).1 ∧
      matching (first.run.run left).2 (second.run.run right).2

namespace SideBySide

variable {ε σ α β γ δ ι : Type} {matching : σ → σ → Prop} {related : α → β → Prop} {alsoRelated : γ → δ → Prop}

theorem pure {a : α} {b : β} (isRelated : related a b) :
    SideBySide matching related (pure a : ExceptT ε (StateM σ) α) (pure b) :=
  fun _ _ matched => ⟨.ok isRelated, matched⟩

theorem throw (error : ε) :
    SideBySide matching related (throw error : ExceptT ε (StateM σ) α) (throw error : ExceptT ε (StateM σ) β) :=
  fun _ _ matched => ⟨.error error, matched⟩

/-- Two runs that look at their states see states that match. -/
theorem get : SideBySide matching matching (getThe σ : ExceptT ε (StateM σ) σ) (getThe σ) :=
  fun _ _ matched => ⟨.ok matched, matched⟩

theorem bind {first : ExceptT ε (StateM σ) α} {second : ExceptT ε (StateM σ) β} {next : α → ExceptT ε (StateM σ) γ}
    {next' : β → ExceptT ε (StateM σ) δ} (here : SideBySide matching related first second)
    (after : ∀ a b, related a b → SideBySide matching alsoRelated (next a) (next' b)) :
    SideBySide matching alsoRelated (first >>= next) (second >>= next') := by
  intro left right matched
  obtain ⟨agreeing, matched⟩ := here left right matched
  rw [run_bind, run_bind]
  revert agreeing matched
  generalize first.run.run left = one
  generalize second.run.run right = other
  obtain ⟨result, last⟩ := one
  obtain ⟨result', last'⟩ := other
  rintro (isRelated | error) matched
  · exact after _ _ isRelated last last' matched
  · exact ⟨.error error, matched⟩

theorem mono {weaker : α → β → Prop} {first : ExceptT ε (StateM σ) α} {second : ExceptT ε (StateM σ) β}
    (sideBySide : SideBySide matching related first second) (weaken : ∀ a b, related a b → weaker a b) :
    SideBySide matching weaker first second :=
  fun left right matched => (sideBySide left right matched).imp_left fun agreeing => agreeing.mono weaken

theorem mapM {first : ι → ExceptT ε (StateM σ) α} {second : ι → ExceptT ε (StateM σ) β} (elements : List ι)
    (each : ∀ element, SideBySide matching related (first element) (second element)) :
    SideBySide matching (List.Forall₂ related) (elements.mapM first) (elements.mapM second) := by
  induction elements with
  | nil => exact pure .nil
  | cons element rest ih =>
      rw [List.mapM_cons, List.mapM_cons]
      apply (each element).bind
      intro a b isRelated
      apply ih.bind
      intro more more' areRelated
      exact pure (.cons isRelated areRelated)

theorem filterMapM {first : ι → ExceptT ε (StateM σ) (Option α)} {second : ι → ExceptT ε (StateM σ) (Option β)}
    (elements : List ι) (each : ∀ element, SideBySide matching (Option.Rel related) (first element) (second element)) :
    SideBySide matching (List.Forall₂ related) (elements.filterMapM first) (elements.filterMapM second) := by
  induction elements with
  | nil => exact pure .nil
  | cons element rest ih =>
      rw [List.filterMapM_cons, List.filterMapM_cons]
      apply (each element).bind
      rintro _ _ (isRelated | _)
      · apply ih.bind
        intro more more' areRelated
        exact pure (.cons isRelated areRelated)
      · exact ih

theorem forM {first second : ι → ExceptT ε (StateM σ) PUnit} (elements : List ι)
    (each : ∀ element, SideBySide matching (· = ·) (first element) (second element)) :
    SideBySide matching (· = ·) (elements.forM first) (elements.forM second) := by
  induction elements with
  | nil => exact pure rfl
  | cons element rest ih => exact (each element).bind fun _ _ _ => ih

end SideBySide

/-- Code whose result depends on nothing but what matching states have in common. -/
def Blind {ε σ α : Type} (matching : σ → σ → Prop) (code : ExceptT ε (StateM σ) α) : Prop :=
  SideBySide matching (· = ·) code code

namespace Blind

variable {ε σ α β γ ι : Type} {matching : σ → σ → Prop}

theorem pure (a : α) : Blind matching (pure a : ExceptT ε (StateM σ) α) :=
  SideBySide.pure rfl

theorem throw (error : ε) : Blind matching (throw error : ExceptT ε (StateM σ) α) :=
  SideBySide.throw error

theorem bind {code : ExceptT ε (StateM σ) α} {next : α → ExceptT ε (StateM σ) β} (here : Blind matching code)
    (after : ∀ a, Blind matching (next a)) : Blind matching (code >>= next) := by
  apply SideBySide.bind here
  rintro a _ rfl
  exact after a

/-- Code that is blind may stand before code that goes side by side. -/
theorem before {related : β → γ → Prop} {code : ExceptT ε (StateM σ) α} {next : α → ExceptT ε (StateM σ) β}
    {next' : α → ExceptT ε (StateM σ) γ} (here : Blind matching code)
    (after : ∀ a, SideBySide matching related (next a) (next' a)) :
    SideBySide matching related (code >>= next) (code >>= next') := by
  apply SideBySide.bind here
  rintro a _ rfl
  exact after a

theorem inSome {code : ExceptT ε (StateM σ) α} (here : Blind matching code) : Blind matching (some <$> code) := by
  rw [map_eq_pure_bind]
  exact here.bind fun a => pure (some a)

theorem mapM {code : ι → ExceptT ε (StateM σ) α} (elements : List ι) (each : ∀ element, Blind matching (code element)) :
    Blind matching (elements.mapM code) := by
  apply SideBySide.mono (SideBySide.mapM elements each)
  intro results results' same
  exact List.forall₂_eq_eq_eq.subst (motive := fun relation => relation results results') same

theorem filterMapM {code : ι → ExceptT ε (StateM σ) (Option α)} (elements : List ι)
    (each : ∀ element, Blind matching (code element)) : Blind matching (elements.filterMapM code) := by
  induction elements with
  | nil => exact pure []
  | cons element rest ih =>
      rw [List.filterMapM_cons]
      apply (each element).bind
      intro found
      cases found with
      | none => exact ih
      | some a => exact ih.bind fun more => pure (a :: more)

theorem foldrM {code : ι → α → ExceptT ε (StateM σ) α} (elements : List ι) (start : α)
    (each : ∀ element a, Blind matching (code element a)) : Blind matching (elements.foldrM code start) := by
  induction elements with
  | nil => exact pure start
  | cons element rest ih =>
      rw [List.foldrM_cons]
      exact ih.bind fun a => each element a

theorem forM {code : ι → ExceptT ε (StateM σ) PUnit} (elements : List ι)
    (each : ∀ element, Blind matching (code element)) : Blind matching (elements.forM code) :=
  SideBySide.forM elements each

theorem adapt {ε' : Type} {code : ExceptT ε (StateM σ) α} (change : ε → ε') (here : Blind matching code) :
    Blind matching (ExceptT.adapt change code) :=
  fun left right matched => (here left right matched).imp_left (Agreeing.mapError change)

theorem lift (result : Except ε α) : Blind matching (liftExcept result : ExceptT ε (StateM σ) α) := by
  cases result with
  | ok a => exact pure a
  | error error => exact throw error

end Blind

end DatalogRam.Lowering
