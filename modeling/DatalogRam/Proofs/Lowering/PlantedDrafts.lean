import DatalogRam.Proofs.Lowering.PlantedPrograms
import DatalogRam.Proofs.Lowering.Programs
import DatalogRam.Proofs.Provenance.Decisions

/-!
# Lowered code is a forest

The code of a program is a forest with the main statement and the bodies of the subroutines as roots: no node is used
twice. The same holds of a draft into which values, conditions, queries, info relations and explanations are written in
any order. What a failed translation leaves behind hangs from nothing.

The statements that are run are trees, and the program also has the numbers of their roots. `lowered_shows` says that
these are two views of one program: at each of the numbers the arena holds the tree.
-/

namespace DatalogRam.Lowering

open Ram

/-- What may be translated on its own. -/
inductive Piece where
  | value (sites : Sites) (arg : Argument)
  | constraint (sites : Sites) (literal : Literal)
  | complete (clause : Clause) (id : Nat) (purpose : Purpose)
  | incremental (clause : Clause) (id : Nat) (stratum : List Name) (version : Nat) (purpose : Purpose)
  | info (clause : Clause) (id : Nat)
  | explanation (clause : Clause) (id : Nat)
  | decision (clause : Clause) (slots : Slots)

/-- Translate a piece. The result is the nodes that it is translated to. -/
def Piece.lower (plan : Plan) : Piece → Lower (List NodeRef)
  | value sites arg => do return [(← lowerValue sites arg).ref]
  | constraint sites literal => do return (← lowerConstraint plan sites literal).toList.map Placed.ref
  | complete clause id purpose => do return [(← lowerComplete plan clause id purpose).ref]
  | incremental clause id stratum version purpose => do
      return [(← lowerIncremental plan clause id stratum version purpose).ref]
  | info clause id => do return [(← lowerInfo plan clause id).ref]
  | explanation clause id => do
      let explanation ← lowerExplanation plan clause id
      return [explanation.derivation.body.ref, explanation.decision.body.ref]
  | decision clause slots => do return [(← lowerDecision plan clause slots).ref]

/-- A draft together with the nodes that pieces were translated to. -/
structure Workspace where
  draft : Draft
  written : List NodeRef

/-- Translate one piece more. If that fails, the draft keeps what was written before the failure. -/
def Workspace.write (workspace : Workspace) (entry : Plan × Piece) : Workspace :=
  match outcome (entry.2.lower entry.1) workspace.draft with
  | (.ok refs, draft) => ⟨draft, refs ++ workspace.written⟩
  | (.error _, draft) => ⟨draft, workspace.written⟩

/-- Translate pieces one after another. -/
def Workspace.ofPieces (entries : List (Plan × Piece)) : Workspace :=
  entries.foldl write ⟨.empty, []⟩

/-- Translate a piece. The result is the trees that it is translated to, with their nodes. -/
def Piece.plant (plan : Plan) : Piece → Lower (List Root)
  | value sites arg => do return [.expr (← lowerValue sites arg)]
  | constraint sites literal => do return (← lowerConstraint plan sites literal).toList.map .cond
  | complete clause id purpose => do return [.stmt (← lowerComplete plan clause id purpose)]
  | incremental clause id stratum version purpose => do
      return [.stmt (← lowerIncremental plan clause id stratum version purpose)]
  | info clause id => do return [.stmt (← lowerInfo plan clause id)]
  | explanation clause id => do
      let explanation ← lowerExplanation plan clause id
      return [.stmt explanation.derivation.body, .stmt explanation.decision.body]
  | decision clause slots => do return [.stmt (← lowerDecision plan clause slots)]

instance : Rooted Root := ⟨fun root => {root}⟩

theorem coe_eq_roots (planted : List Root) : (planted : Multiset Root) = roots planted := by
  have single := coe_map_eq_roots id (fun _ => rfl) planted
  rwa [List.map_id] at single

variable {plan : Plan}

theorem Piece.lower_eq_plant (piece : Piece) : piece.lower plan = List.map Root.ref <$> piece.plant plan := by
  cases piece <;> simp [Piece.lower, Piece.plant, Root.ref, Placed.ref, Function.comp_def] <;> rfl

theorem Piece.plants (piece : Piece) : Plants 0 (piece.plant plan) := by
  have one {τ : Type} [HasSort τ] [HasRoot τ] {code : Lower (Placed τ)} (plants : Plants 0 code) :
      Plants 0 (do return [HasRoot.root (← code)]) :=
    plants.feed fun placed => Plants.pure (add_zero _).symm
  cases piece with
  | value sites arg => exact one (plants_value sites arg)
  | constraint sites literal =>
      apply (plants_constraint sites literal).feed
      intro condition
      cases condition with
      | none => exact Plants.pure rfl
      | some condition => exact Plants.pure (add_zero _).symm
  | complete clause id purpose => exact one (plants_complete clause id purpose)
  | incremental clause id stratum version purpose =>
      exact one (plants_incremental clause id stratum version purpose)
  | info clause id => exact one (plants_info clause id)
  | explanation clause id =>
      apply (plants_explanation clause id).feed
      intro explanation
      apply Plants.pure
      rw [roots_cons, roots_cons, roots_nil, add_zero]
      rfl
  | decision clause slots => exact one (plants_decision clause slots)

theorem Draft.bears_empty : Draft.empty.Bears 0 :=
  Arena.Bears.empty

/-- The draft is a forest that shows the trees to which pieces were translated. -/
def Workspace.Grown (workspace : Workspace) : Prop :=
  ∃ planted : List Root, workspace.written = planted.map Root.ref ∧ workspace.draft.Bears planted

/-- One piece more adds its nodes to the roots, or nothing if it fails. -/
theorem Workspace.grown_write {workspace : Workspace} (grown : workspace.Grown) (entry : Plan × Piece) :
    (workspace.write entry).Grown := by
  obtain ⟨planted, written, bears⟩ := grown
  have after := @Piece.plants entry.1 entry.2 workspace.draft planted
  rw [zero_add] at after
  have more := after bears
  have ran : outcome (entry.2.lower entry.1) workspace.draft =
      ((outcome (entry.2.plant entry.1) workspace.draft).1.map (List.map Root.ref),
        (outcome (entry.2.plant entry.1) workspace.draft).2) := by
    rw [entry.2.lower_eq_plant, ← bind_pure_comp, outcome_bind]
    rcases outcome (entry.2.plant entry.1) workspace.draft with ⟨_ | _, _⟩ <;> rfl
  rw [Workspace.write, ran]
  cases planting : outcome (entry.2.plant entry.1) workspace.draft with
  | mk result draft =>
      rw [planting] at more
      cases result with
      | ok new =>
          rw [roots_ok, ← coe_eq_roots, Multiset.coe_add] at more
          refine ⟨new ++ planted, ?_, more⟩
          rw [List.map_append, ← written]
          rfl
      | error error =>
          rw [roots_error, zero_add] at more
          exact ⟨planted, written, more⟩

theorem Workspace.grown_ofPieces (entries : List (Plan × Piece)) : (ofPieces entries).Grown := by
  rw [ofPieces]
  -- From any forest on, each piece keeps it one.
  suffices onward : ∀ workspace : Workspace, workspace.Grown → (entries.foldl write workspace).Grown from
    onward ⟨.empty, []⟩ ⟨[], rfl, Draft.bears_empty⟩
  induction entries with
  | nil => exact fun _ grown => grown
  | cons entry rest ih => exact fun workspace grown => ih _ (grown_write grown entry)

/-- The nodes from which the code of a program hangs: the main statement and the bodies of the subroutines. -/
def entryPoints (compiled : Ram.Program) : List NodeRef :=
  compiled.main.ref :: compiled.subroutines.map fun entry => entry.2.body.ref

theorem coe_entryPoints (compiled : Ram.Program) :
    (entryPoints compiled : Multiset NodeRef) =
      (roots compiled.main + roots (compiled.subroutines.map Prod.snd)).map Root.ref := by
  have bodies := coe_map_eq_roots (fun subroutine : Subroutine => .stmt subroutine.body) (fun _ => rfl)
    (compiled.subroutines.map Prod.snd)
  rw [← bodies, List.map_map, Multiset.map_add, Multiset.map_coe, List.map_map]
  rfl

/-- The code of a lowered program is a forest that shows the trees of its statements. -/
theorem bears_of_lowered {program : Program} {strategy : Strategy} {debugInfo : Bool} {compiled : Ram.Program}
    (lowered : (lowerProgram program strategy debugInfo).result = .ok compiled) :
    compiled.arena.Bears (roots compiled.main + roots (compiled.subroutines.map Prod.snd)) := by
  have plants : Plants 0 (lowering program strategy debugInfo) :=
    Plants.after (still_planProgram program strategy debugInfo) fun plan => plants_unit
  have after := plants .empty 0 Draft.bears_empty
  rw [lowerProgram_result] at lowered
  cases ran : outcome (lowering program strategy debugInfo) .empty with
  | mk result last =>
      rw [ran] at lowered after
      cases result with
      | error error => cases lowered
      | ok main =>
          cases lowered
          rw [roots_ok, add_zero] at after
          exact after

/-- Lowered code is a forest: no node is used twice, children come before their parents, and all of them are there. This
holds of every program that was lowered, and of every draft into which pieces were translated, also where some failed. -/
theorem lowered_isForest :
    (∀ program strategy debugInfo compiled, (lowerProgram program strategy debugInfo).result = .ok compiled →
      compiled.arena.IsForest (entryPoints compiled)) ∧
    ∀ entries, (Workspace.ofPieces entries).draft.arena.IsForest (Workspace.ofPieces entries).written := by
  refine ⟨fun program strategy debugInfo compiled lowered => ?_, fun entries => ?_⟩
  · rw [coe_entryPoints]
    exact (bears_of_lowered lowered).isForest
  · obtain ⟨planted, written, bears⟩ := Workspace.grown_ofPieces entries
    rw [written, ← Multiset.map_coe]
    exact (bears.isForest).mono (Multiset.map_le_map (Multiset.le_add_right _ _))

/-- The arena of a lowered program holds the statements that are run, redirected conditions and copies included: at the
number of the main statement its tree is read, and at the number of the body of each subroutine the tree of that. -/
theorem lowered_shows {program : Program} {strategy : Strategy} {debugInfo : Bool} {compiled : Ram.Program}
    (lowered : (lowerProgram program strategy debugInfo).result = .ok compiled) :
    compiled.arena.stmtAt? compiled.main.id = some compiled.main.tree ∧
      ∀ entry ∈ compiled.subroutines,
        compiled.arena.stmtAt? entry.2.body.id = some entry.2.body.tree := by
  obtain ⟨main, bodies⟩ := forall_mem_add.1 (bears_of_lowered lowered).shows
  have single := coe_map_eq_roots (fun subroutine : Subroutine => .stmt subroutine.body) (fun _ => rfl)
    (compiled.subroutines.map Prod.snd)
  rw [← single, List.map_map] at bodies
  exact ⟨main (.stmt compiled.main) (Multiset.mem_singleton_self _), fun entry member =>
    bodies (.stmt entry.2.body) (List.mem_map.2 ⟨entry, member, rfl⟩)⟩

/-- Two pieces for the rule for due tasks, the first of which fails after one of its arguments was written. -/
def duePieces (plan : Plan) : List (Plan × Piece) :=
  [(plan, .value .empty (.operator .add [.constant (.number 1), .var "days"])), (plan, .explanation dueRule 0)]

theorem lowered_isForest_backlog :
    ∃ plan compiled, Plan.of backlog .provenance true = .ok plan ∧
      (lowerProgram backlog .provenance true).result = .ok compiled ∧
      compiled.arena.IsForest (entryPoints compiled) ∧
      (Workspace.ofPieces (duePieces plan)).draft.arena.IsForest (Workspace.ofPieces (duePieces plan)).written ∧
      (Workspace.ofPieces (duePieces plan)).written.length = 2 := by
  obtain ⟨compiled, lowered⟩ := exists_result (show (lowerProgram backlog .provenance true).result.isOk by
    decide +kernel)
  refine ⟨_, compiled, rfl, lowered, lowered_isForest.1 _ _ _ _ lowered, lowered_isForest.2 _, ?_⟩
  decide +kernel

end DatalogRam.Lowering
