import DatalogRam.EventFilter
import Mathlib.Data.List.Induction

/-!
# The directive that decides

Directives are ordered by how specific they are, and the order is total. So among those that concern a target there
are most specific ones, and the last of them decides. The scan keeps it while it meets one directive after the other.

Tests show what the setting asks for. Without one that can be read they show warnings and errors.
-/

namespace DatalogRam

namespace Directive

variable {first second third : Directive}

/-- Of any two directives one is as specific as the other or more. -/
theorem supersedes_total (first second : Directive) : first.supersedes second ∨ second.supersedes first := by
  rcases Nat.lt_trichotomy first.target.length second.target.length with shorter | same | longer
  · simp [supersedes, shorter, Nat.ne_of_gt]
  · cases hfirst : first.field with
    | none => simp [supersedes, same, hfirst]
    | some test =>
        cases hsecond : second.field with
        | none => simp [supersedes, same, hfirst, hsecond]
        | some test' => simpa [supersedes, same, hfirst, hsecond] using String.le_total test'.name test.name
  · simp [supersedes, longer, Nat.ne_of_gt]

theorem supersedes_trans (above : first.supersedes second) (below : second.supersedes third) :
    first.supersedes third := by
  have names := @String.le_trans
  grind [supersedes]

end Directive

namespace EventFilter

variable {filter : EventFilter} {target : String} {directive : Directive}

/-- The directive concerns the target, it is as specific as those before it that do, or more, and none of those
behind it is. -/
def Decides (filter : EventFilter) (target : String) (directive : Directive) : Prop :=
  ∃ before behind, filter = before ++ directive :: behind ∧ directive.concerns target ∧
    (∀ other ∈ before, other.concerns target → directive.supersedes other) ∧
    ∀ other ∈ behind, other.concerns target → ¬ other.supersedes directive

theorem Decides.supersedes (decides : filter.Decides target directive) {other : Directive} (member : other ∈ filter)
    (concerned : other.concerns target) : directive.supersedes other := by
  obtain ⟨before, behind, rfl, -, above, below⟩ := decides
  rcases List.mem_append.1 member with member | member
  · exact above other member concerned
  · rcases List.mem_cons.1 member with rfl | member
    · exact (Directive.supersedes_total other other).elim id id
    · exact (Directive.supersedes_total directive other).resolve_right (below other member concerned)

/-- At most one directive decides. -/
theorem Decides.unique {other : Directive} (decides : filter.Decides target directive)
    (decides' : filter.Decides target other) : directive = other := by
  obtain ⟨before, behind, rfl, concerned, above, below⟩ := decides
  obtain ⟨before', behind', split, concerned', above', below'⟩ := decides'
  rcases List.append_eq_append_iff.1 split with ⟨between, rfl, rest⟩ | ⟨between, rfl, rest⟩
  · cases between with
    | nil => exact (List.cons.inj rest).1
    | cons first between =>
        obtain ⟨rfl, rfl⟩ := List.cons.inj rest
        have later : other ∈ between ++ other :: behind' := by simp
        exact absurd (above' directive (by simp) concerned) (below other later concerned')
  · cases between with
    | nil => exact (List.cons.inj rest).1.symm
    | cons first between =>
        obtain ⟨rfl, rfl⟩ := List.cons.inj rest
        have later : directive ∈ between ++ directive :: behind := by simp
        exact absurd (above other (by simp) concerned') (below' directive later concerned)

/-- The scan meets one more directive. -/
theorem deciding?_concat (filter : EventFilter) (target : String) (last : Directive) :
    deciding? (filter ++ [last]) target =
      if last.concerns target then choose (filter.deciding? target) last else filter.deciding? target := by
  by_cases concerned : last.concerns target <;>
    simp [deciding?, List.filter_append, concerned, List.foldl_append]

theorem deciding?_eq_none_iff :
    filter.deciding? target = none ↔ ∀ directive ∈ filter, ¬ directive.concerns target := by
  induction filter using List.reverseRecOn with
  | nil => simp [deciding?]
  | append_singleton filter last ih =>
      rw [deciding?_concat]
      split
      next concerned =>
        have chosen : choose (deciding? filter target) last ≠ none := by
          unfold choose
          split
          · exact Option.some_ne_none _
          · split <;> exact Option.some_ne_none _
        exact iff_of_false chosen fun every => every last (by simp) concerned
      next unconcerned => simp [ih, unconcerned, or_imp, forall_and]

theorem decides_of_deciding? (chosen : filter.deciding? target = some directive) :
    filter.Decides target directive := by
  induction filter using List.reverseRecOn generalizing directive with
  | nil => simp [deciding?] at chosen
  | append_singleton filter last ih =>
      rw [deciding?_concat] at chosen
      -- A directive that decides still does when one behind it is not as specific or does not concern the target.
      have keep {best : Directive} (isBest : deciding? filter target = some best)
          (apart : last.concerns target → ¬ last.supersedes best) : Decides (filter ++ [last]) target best := by
        obtain ⟨before, behind, rfl, concerned, above, below⟩ := ih isBest
        refine ⟨before, behind ++ [last], by simp, concerned, above, fun other member => ?_⟩
        rcases List.mem_append.1 member with member | member
        · exact below other member
        · rwa [List.mem_singleton.1 member]
      split at chosen
      next concerned =>
        cases isBest : deciding? filter target with
        | none =>
            rw [isBest] at chosen
            obtain rfl : last = directive := Option.some.inj chosen
            refine ⟨filter, [], rfl, concerned, fun other member concerned' => ?_, by simp⟩
            exact absurd concerned' (deciding?_eq_none_iff.1 isBest other member)
        | some best =>
            simp only [isBest, choose] at chosen
            split at chosen
            next replaced =>
              obtain rfl : last = directive := Option.some.inj chosen
              refine ⟨filter, [], rfl, concerned, fun other member concerned' => ?_, by simp⟩
              exact Directive.supersedes_trans replaced ((ih isBest).supersedes member concerned')
            next kept =>
              obtain rfl : best = directive := Option.some.inj chosen
              exact keep isBest fun _ => kept
      next unconcerned => exact keep chosen fun concerned => absurd concerned unconcerned

/-- The scan finds the directive that decides. -/
theorem deciding?_eq_some_iff : filter.deciding? target = some directive ↔ filter.Decides target directive := by
  refine ⟨decides_of_deciding?, fun decides => ?_⟩
  cases chosen : filter.deciding? target with
  | none =>
      obtain ⟨before, behind, rfl, concerned, -⟩ := decides
      exact absurd concerned (deciding?_eq_none_iff.1 chosen directive (by simp))
  | some other => rw [decides.unique (decides_of_deciding? chosen)]

/-- Events are let through up to the threshold of the directive that decides. -/
theorem lets_iff {level : Level} :
    filter.lets target level ↔
      ∃ directive threshold, filter.Decides target directive ∧ directive.threshold = some threshold ∧
        level.reaches threshold := by
  unfold lets
  cases chosen : filter.deciding? target with
  | none => simp [← deciding?_eq_some_iff, chosen]
  | some directive => simp [← deciding?_eq_some_iff, chosen, Option.any_eq_true]

/-- Where events of a level are let through, more important ones are. -/
theorem lets_of_reaches {level level' : Level} (important : level'.reaches level) (shown : filter.lets target level) :
    filter.lets target level' := by
  obtain ⟨directive, threshold, decides, isThreshold, reaches⟩ := lets_iff.1 shown
  refine lets_iff.2 ⟨directive, threshold, decides, isThreshold, ?_⟩
  simp only [Level.reaches, decide_eq_true_eq] at important reaches ⊢
  exact Nat.le_trans important reaches

/-- A level alone lets through the events of that level and all that are more important. -/
theorem readsLevels : library.ReadsLevels := by
  intro threshold level target
  have isRead : parseLeniently threshold.name = [{ threshold := some threshold }] := by
    cases threshold <;> decide
  change lets (parseLeniently threshold.name) target level = level.reaches threshold
  rw [isRead]
  simp [lets, deciding?, Directive.concerns, Directive.isUnscoped, beginsWith, choose]

/-- Tests show what the first setting asks for, and warnings and errors if it cannot be read. -/
theorem shows_setting (first : Option String) (others : List (Option String)) (level : Level) :
    library.shows ((first :: others).foldl (fun state setting => library.initTest setting state) none) target level =
      (first.bind parse?).elim (level.reaches .warn) (lets · target level) :=
  FilterLibrary.shows_foldl_initTest readsLevels first others

end EventFilter

end DatalogRam
