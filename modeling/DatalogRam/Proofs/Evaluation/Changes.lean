import DatalogRam.Proofs.Evaluation.Tables
import DatalogRam.Proofs.Lowering.ProgramCode
import DatalogRam.Proofs.Machine.Computes

/-!
# Changes relation by relation

Around its rounds a stratum moves rows between the three tables of each of its relations: they are seeded,
advanced and cleared. What such statements do to the tables of one relation, they do to those of all.
-/

namespace DatalogRam.Lowering

open Machine Ram

/-- No rows. -/
def Facts.none : Facts := fun _ => ∅

/-- Contents by their parts. -/
def Contents.of (full delta fresh : Facts) : Contents
  | .full => full
  | .delta => delta
  | .fresh => fresh

/-- Contents in which the tables of some relations change. -/
def Contents.change (contents : Contents) (names : List Name)
    (update : (Part → Set Row) → Part → Set Row) : Contents :=
  fun part name => if name ∈ names then update (contents · name) part else contents part name

theorem Contents.change_cons (contents : Contents) {name : Name} {names : List Name} (new : name ∉ names)
    (update : (Part → Set Row) → Part → Set Row) :
    (contents.change [name] update).change names update = contents.change (name :: names) update := by
  funext part other
  by_cases same : other = name
  · subst same
    simp [Contents.change, new]
  · simp [Contents.change, same]

variable {plan : Plan} {tracked : Part → Name → Prop}

/-- Statements that change the tables of each relation change those of all of them. -/
theorem leads_change (args : Row) {names : List Name} (once : names.Nodup) {code : Name → List Stmt}
    {update : (Part → Set Row) → Part → Set Row}
    (each : ∀ name ∈ names, ∀ start contents, Represents plan.program plan.auxiliary tracked start contents →
      ∃ final, Represents plan.program plan.auxiliary tracked final (contents.change [name] update) ∧
        ∀ rounds, Leads (runStmts rounds args (code name)) start .proceed final)
    {start : Store} {contents : Contents}
    (represents : Represents plan.program plan.auxiliary tracked start contents) :
    ∃ final, Represents plan.program plan.auxiliary tracked final (contents.change names update) ∧
      ∀ rounds, Leads (runStmts rounds args (names.map code).flatten) start .proceed final := by
  induction names generalizing start contents with
  | nil =>
      refine ⟨start, ?_, fun rounds => Leads.nil start⟩
      have same : contents.change [] update = contents := by
        funext part name
        simp [Contents.change]
      rwa [same]
  | cons name rest ih =>
      obtain ⟨new, once⟩ := List.nodup_cons.1 once
      obtain ⟨middle, isMiddle, first⟩ := each name List.mem_cons_self start contents represents
      obtain ⟨final, isFinal, onward⟩ :=
        ih once (fun other member => each other (List.mem_cons_of_mem _ member)) isMiddle
      refine ⟨final, ?_, fun rounds => ?_⟩
      · rwa [Contents.change_cons contents new] at isFinal
      · rw [List.map_cons, List.flatten_cons]
        exact (first rounds).append (onward rounds)

variable {args : Row} {name : Name} {start : Store} {contents : Contents}

/-- The rows of the previous round are joined by those of the relation. -/
def seeding (tables : Part → Set Row) : Part → Set Row
  | .delta => tables .delta ∪ tables .full
  | part => tables part

theorem leads_seed (distinct : (tableNames plan.program).Nodup) (declared : name ∈ plan.program.relationNames)
    (isTracked : ∀ part, tracked part name)
    (represents : Represents plan.program plan.auxiliary tracked start contents) :
    ∃ final, Represents plan.program plan.auxiliary tracked final (contents.change [name] seeding) ∧
      ∀ rounds, Leads (runStmts rounds args [seedCode name]) start .proceed final := by
  have merged : Represents plan.program plan.auxiliary tracked (start.merge name.text (deltaName name))
      (contents.set .delta name (contents .delta name ∪ contents .full name)) :=
    represents.merge .full .delta distinct declared (isTracked .full)
  have same : contents.set .delta name (contents .delta name ∪ contents .full name) =
      contents.change [name] seeding := by
    funext part other
    cases part <;> by_cases isName : other = name <;> simp [Contents.change, Contents.set, seeding, isName]
  rw [same] at merged
  exact ⟨_, merged, fun rounds => (Leads.merge name.text (deltaName name) start).singleton⟩

/-- What the statements between two rounds make of a store. -/
def advanced (name : Name) (store : Store) : Store :=
  ((store.merge (freshName name) name.text).swap (deltaName name) (freshName name)).clear (freshName name)

theorem leads_advanced (name : Name) (store : Store) {rounds : Nat} :
    Leads (runStmts rounds args (advanceCode name)) store .proceed (advanced name store) :=
  (Leads.merge _ _ _).cons ((Leads.swap _ _ _).cons (Leads.clear _ _).singleton)

/-- New rows become rows of the relation and those that the next round reads. -/
def advancing (tables : Part → Set Row) : Part → Set Row
  | .full => tables .full ∪ tables .fresh
  | .delta => tables .fresh
  | .fresh => ∅

theorem leads_advance (distinct : (tableNames plan.program).Nodup) (declared : name ∈ plan.program.relationNames)
    (isTracked : ∀ part, tracked part name)
    (represents : Represents plan.program plan.auxiliary tracked start contents) :
    ∃ final, Represents plan.program plan.auxiliary tracked final (contents.change [name] advancing) ∧
      ∀ rounds, Leads (runStmts rounds args (advanceCode name)) start .proceed final := by
  have isMerged : Represents plan.program plan.auxiliary tracked (start.merge (freshName name) name.text)
      (contents.set .full name (contents .full name ∪ contents .fresh name)) :=
    represents.merge .fresh .full distinct declared (isTracked .fresh)
  have isAdvanced : Represents plan.program plan.auxiliary tracked (advanced name start) _ :=
    (isMerged.swap .delta .fresh distinct declared (isTracked .delta) (isTracked .fresh)).clear .fresh distinct declared
  refine ⟨advanced name start, ?_, fun rounds => leads_advanced name start⟩
  convert isAdvanced using 1
  funext part other
  cases part <;> by_cases isName : other = name <;> simp [Contents.change, Contents.set, advancing, isName]

/-- What the statements after the last round make of a store. -/
def cleared (name : Name) (store : Store) : Store :=
  (store.clear (deltaName name)).clear (freshName name)

theorem leads_cleared (name : Name) (store : Store) {rounds : Nat} :
    Leads (runStmts rounds args (clearRoundsCode name)) store .proceed (cleared name store) :=
  (Leads.clear _ _).cons (Leads.clear _ _).singleton

/-- The tables for rounds become empty. -/
def clearing (tables : Part → Set Row) : Part → Set Row
  | .full => tables .full
  | _ => ∅

theorem leads_clearRounds (distinct : (tableNames plan.program).Nodup)
    (declared : name ∈ plan.program.relationNames)
    (represents : Represents plan.program plan.auxiliary tracked start contents) :
    ∃ final, Represents plan.program plan.auxiliary tracked final (contents.change [name] clearing) ∧
      ∀ rounds, Leads (runStmts rounds args (clearRoundsCode name)) start .proceed final := by
  have isCleared : Represents plan.program plan.auxiliary tracked (cleared name start) _ :=
    (represents.clear .delta distinct declared).clear .fresh distinct declared
  refine ⟨cleared name start, ?_, fun rounds => leads_cleared name start⟩
  convert isCleared using 1
  funext part other
  cases part <;> by_cases isName : other = name <;> simp [Contents.change, Contents.set, clearing, isName]

end DatalogRam.Lowering
