import DatalogRam.Proofs.Machine.Run

/-!
# Runs that stop

A run whose loops may go on as long as they like either goes on for ever or stops, with a result or with a fault. It
stops if it does so for some number of rounds: when it is allowed more rounds it does the same, so there is only one
way in which it stops.
-/

namespace DatalogRam.Machine

open Ram

variable {α : Type}

/-- The run stops with a result or a fault, if its loops may make enough rounds. -/
def Stops (code : Nat → Exec α) (state : State) (result : Except Fault α) (final : State) : Prop :=
  ∃ rounds, (code rounds).run.run state = (result.mapError .fault, final)

theorem mapError_fault_ne (result : Except Fault α) : result.mapError Halt.fault ≠ .error .outOfRounds := by
  cases result <;> exact nofun

theorem mapError_fault_injective {result other : Except Fault α}
    (same : result.mapError Halt.fault = other.mapError Halt.fault) : result = other := by
  cases result <;> cases other <;> cases same <;> rfl

/-- What does not stop for want of rounds stops with a result or a fault. -/
theorem exists_mapError_fault {result : Except Halt α} (different : result ≠ .error .outOfRounds) :
    ∃ stopped : Except Fault α, result = stopped.mapError .fault := by
  cases result with
  | ok a => exact ⟨.ok a, rfl⟩
  | error halt =>
      cases halt with
      | fault fault => exact ⟨.error fault, rfl⟩
      | outOfRounds => exact absurd rfl different

namespace Stops

variable {code : Nat → Exec α} {state final other : State} {result result' : Except Fault α}

theorem eventually (goesOn : ∀ {rounds limit}, rounds ≤ limit → GoesOn (code rounds) (code limit))
    (stops : Stops code state result final) :
    ∃ rounds, ∀ limit, rounds ≤ limit → (code limit).run.run state = (result.mapError .fault, final) := by
  obtain ⟨rounds, ran⟩ := stops
  refine ⟨rounds, fun limit enough => ?_⟩
  rw [← ran]
  apply goesOn enough state
  rw [ran]
  exact mapError_fault_ne result

theorem unique (goesOn : ∀ {rounds limit}, rounds ≤ limit → GoesOn (code rounds) (code limit))
    (first : Stops code state result final) (second : Stops code state result' other) :
    result = result' ∧ final = other := by
  obtain ⟨rounds, ran⟩ := first.eventually goesOn
  obtain ⟨rounds', ran'⟩ := second.eventually goesOn
  have same := (ran _ (Nat.le_max_left rounds rounds')).symm.trans (ran' _ (Nat.le_max_right rounds rounds'))
  exact ⟨mapError_fault_injective (congrArg Prod.fst same), congrArg Prod.snd same⟩

end Stops

end DatalogRam.Machine
