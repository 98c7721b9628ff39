import DatalogRam.Proofs.Machine.Loopless
import DatalogRam.Proofs.Provenance.Repetitions

/-!
# Explanations only look

The query that derives the rows of a rule is built like the query of the rule, around an answer in place of an
insertion, and the decision of its literals consists of guarded answers. So a subroutine has no loop and no part that
changes the store. A call stops and leaves the store as it was, even if it fails on the way.
-/

namespace DatalogRam

open Lowering Machine Ram

section Code

variable {ordinal : String → Int64} {plan : Plan} {clause : Clause} {slots : Slots} {statement : Stmt}

theorem onlyLooks_of_explanationCode (code : explanationCode ordinal plan clause slots = some statement) :
    OnlyLooks statement := by
  obtain ⟨_, _, code⟩ := Option.bind_eq_some_iff.1 code
  have answers (frame : Frame) (operation : Op) (code : answerCode ordinal plan clause frame slots = some operation) :
      Permits (fun _ => False) operation := by
    obtain ⟨negated, conditions, _, _, rfl⟩ := answerCode_eq_some code
    exact of_guardedBy (fun _ _ permits => permits) trivial _
  obtain ⟨operation, rfl, permits⟩ := of_ruleCode (fun _ _ permits => permits) (fun _ _ _ _ _ _ permits => permits)
    (fun _ _ _ permits => permits) answers code
  exact ⟨rfl, permits⟩

theorem onlyLooks_of_decisionCode (code : decisionCode ordinal plan clause slots = some statement) :
    OnlyLooks statement := by
  obtain ⟨branches, rfl, areBranches⟩ := decisionCode_eq_some code
  have each (branch : Stmt) (member : branch ∈ branches) : OnlyLooks branch := by
    obtain ⟨_, _, _, _, redirected, _, _, rfl⟩ := areBranches branch member
    exact ⟨rfl, trivial, trivial, trivial⟩
  exact ⟨Stmt.loopsOfAll_eq_nil fun branch member => (each branch member).loopless,
    allAllow_iff.2 fun branch member => (each branch member).unchanging⟩

end Code

variable {program : Program} {debugInfo : Bool} {compiled : Ram.Program}

theorem onlyLooks_subroutine (lowered : (lowerProgram program .provenance debugInfo).result = .ok compiled)
    {name : String} {subroutine : Subroutine} (found : compiled.subroutine? name = some subroutine) :
    OnlyLooks subroutine.body.tree := by
  obtain ⟨_, _, _, _, _, _, _, code | code⟩ := subroutines_of_lowered lowered found
  · exact onlyLooks_of_explanationCode code
  · exact onlyLooks_of_decisionCode code

/-- The state after calls, one after another, each of which may fail. -/
def afterCalls (compiled : Ram.Program) (rounds : Nat) (state : State) (calls : List (String × Row)) : State :=
  calls.foldl (fun state call => ((callSubroutine compiled rounds call.1 call.2).run.run state).2) state

/-- Whatever is stored and asked for, a call stops and leaves the store as it was. So do any number of calls, as after a
run of the program. -/
theorem explanations_only_look (lowered : (lowerProgram program .provenance debugInfo).result = .ok compiled) :
    (∀ name args state, StopsInPlace (callSubroutine compiled · name args) state) ∧
      ∀ rounds state calls, (afterCalls compiled rounds state calls).store = state.store := by
  have stops (name : String) (args : Row) (state : State) : StopsInPlace (callSubroutine compiled · name args) state :=
    OnlyLooks.call_stops (fun _ found => onlyLooks_subroutine lowered found) args state
  refine ⟨stops, fun rounds state calls => ?_⟩
  induction calls generalizing state with
  | nil => rfl
  | cons call calls ih =>
      obtain ⟨result, final, ran, isStore⟩ := stops call.1 call.2 state
      have next : ((callSubroutine compiled rounds call.1 call.2).run.run state).2 = final :=
        congrArg Prod.snd (ran rounds)
      rw [afterCalls, List.foldl_cons, next]
      exact (ih final).trans isStore

/-- An explanation that is found, one that is not, and one that is asked for with too few values. -/
theorem explanations_only_look_twoWays :
    (lowerProgram twoWays .provenance false).result = .ok recordedTwoWays ∧
      ((callSubroutine recordedTwoWays 0 "seen_2_subproof" [1, 2, 2]).run.run runTwoWays.2).1 =
        .ok (some [1, 1, 1, 2, 0]) ∧
      (∀ name args, StopsInPlace (callSubroutine recordedTwoWays · name args) runTwoWays.2) ∧
      (afterCalls recordedTwoWays 0 runTwoWays.2
        [("seen_2_subproof", [1, 2, 2]), ("seen_3_subproof", [2, 3, 2]), ("seen_2_negation_subproof", [2])]).store =
          runTwoWays.2.store := by
  obtain ⟨stops, unchanged⟩ := explanations_only_look lowered_twoWays
  refine ⟨lowered_twoWays, ?_, fun name args => stops name args _, unchanged 0 _ _⟩
  decide +kernel

end DatalogRam
