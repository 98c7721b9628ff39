import DatalogRam.Analysis.Recursion
import DatalogRam.Lowering.Clause
import DatalogRam.Proofs.Analysis.Expiry
import Mathlib.SetTheory.Cardinal.Arithmetic

/-!
# Renaming the variables of clauses

Variables belong to a clause, so each clause may have its own renaming. No analysis of a program sees the names of
variables, and where names are keys of sites and slots, an injective renaming keeps apart what was apart.

A renaming is admissible for a clause if it is injective on the clause's variables and respects the two kinds of
variables that are known by their names. Only the names in the clause matter: there is a permutation of all names that
renames the clause in the same way, so the lemmas below are stated for injective renamings.
-/

namespace DatalogRam

mutual

/-- Rename the variables of an argument, those within aggregates included. -/
def Argument.rename (change : String → String) : Argument → Argument
  | .var name => .var (change name)
  | .unnamed => .unnamed
  | .constant value => .constant value
  | .operator op args => .operator op (Argument.renameAll change args)
  | .external name args => .external name (Argument.renameAll change args)
  | .aggregate function target body =>
      .aggregate function (Argument.renameOption change target) (Literal.renameAll change body)
  | .record args => .record (Argument.renameAll change args)
  | .counter => .counter

def Argument.renameAll (change : String → String) : List Argument → List Argument
  | [] => []
  | arg :: args => arg.rename change :: Argument.renameAll change args

def Argument.renameOption (change : String → String) : Option Argument → Option Argument
  | none => none
  | some arg => some (arg.rename change)

/-- Rename the variables of a literal. -/
def Literal.rename (change : String → String) : Literal → Literal
  | .positive relation args => .positive relation (Argument.renameAll change args)
  | .negative relation args => .negative relation (Argument.renameAll change args)
  | .comparison op left right => .comparison op (left.rename change) (right.rename change)
  | .truth value => .truth value

def Literal.renameAll (change : String → String) : List Literal → List Literal
  | [] => []
  | literal :: literals => literal.rename change :: Literal.renameAll change literals

end

def Atom.rename (change : String → String) (atom : Atom) : Atom :=
  ⟨atom.relation, Argument.renameAll change atom.args⟩

def Clause.rename (change : String → String) (clause : Clause) : Clause :=
  ⟨clause.head.rename change, Literal.renameAll change clause.body⟩

/-- Rename the variables of each clause in its own way. -/
def Program.rename (change : Nat → String → String) (program : Program) : Program :=
  { program with clauses := program.clauses.mapIdx fun id clause => clause.rename (change id) }

variable {change : String → String}

theorem Argument.renameAll_eq_map (change : String → String) (args : List Argument) :
    Argument.renameAll change args = args.map (Argument.rename change) := by
  induction args with
  | nil => rfl
  | cons arg args ih => rw [Argument.renameAll, ih, List.map_cons]

theorem Argument.rename_eq_unnamed {arg : Argument} : arg.rename change = .unnamed ↔ arg = .unnamed := by
  cases arg <;> simp [Argument.rename]

theorem Literal.renameAll_eq_map (change : String → String) (literals : List Literal) :
    Literal.renameAll change literals = literals.map (Literal.rename change) := by
  induction literals with
  | nil => rfl
  | cons literal literals ih => rw [Literal.renameAll, ih, List.map_cons]

/-! ## What renaming does to names -/

mutual

theorem Argument.variables_rename : ∀ arg : Argument, (arg.rename change).variables = arg.variables.map change
  | .var _ | .unnamed | .constant _ | .counter => rfl
  | .operator _ args | .external _ args | .record args => Argument.variablesOfAll_rename args
  | .aggregate _ target body => by
      rw [Argument.rename, Argument.variables, Argument.variables, List.map_append,
        Argument.variablesOfOption_rename target, Literal.variablesOfAll_rename body]

theorem Argument.variablesOfAll_rename : ∀ args : List Argument,
    Argument.variablesOfAll (Argument.renameAll change args) = (Argument.variablesOfAll args).map change
  | [] => rfl
  | arg :: args => by
      rw [Argument.renameAll, Argument.variablesOfAll, Argument.variablesOfAll, List.map_append,
        Argument.variables_rename arg, Argument.variablesOfAll_rename args]

theorem Argument.variablesOfOption_rename : ∀ arg : Option Argument,
    Argument.variablesOfOption (Argument.renameOption change arg) = (Argument.variablesOfOption arg).map change
  | none => rfl
  | some arg => Argument.variables_rename arg

theorem Literal.variables_rename : ∀ literal : Literal,
    (literal.rename change).variables = literal.variables.map change
  | .positive _ args | .negative _ args => Argument.variablesOfAll_rename args
  | .comparison _ left right => by
      rw [Literal.rename, Literal.variables, Literal.variables, List.map_append, Argument.variables_rename left,
        Argument.variables_rename right]
  | .truth _ => rfl

theorem Literal.variablesOfAll_rename : ∀ literals : List Literal,
    Literal.variablesOfAll (Literal.renameAll change literals) = (Literal.variablesOfAll literals).map change
  | [] => rfl
  | literal :: literals => by
      rw [Literal.renameAll, Literal.variablesOfAll, Literal.variablesOfAll, List.map_append,
        Literal.variables_rename literal, Literal.variablesOfAll_rename literals]

end

mutual

/-- Only the names that occur matter. -/
theorem Argument.rename_congr {other : String → String} : ∀ {arg : Argument},
    (∀ name ∈ arg.variables, change name = other name) → arg.rename change = arg.rename other
  | .var _, same => congrArg Argument.var (same _ List.mem_cons_self)
  | .unnamed, _ | .constant _, _ | .counter, _ => rfl
  | .operator _ _, same => congrArg (Argument.operator _) (Argument.renameAll_congr same)
  | .external _ _, same => congrArg (Argument.external _) (Argument.renameAll_congr same)
  | .record _, same => congrArg Argument.record (Argument.renameAll_congr same)
  | .aggregate _ _ _, same => by
      obtain ⟨inTarget, inBody⟩ := List.forall_mem_append.1 same
      rw [Argument.rename, Argument.rename, Argument.renameOption_congr inTarget, Literal.renameAll_congr inBody]

theorem Argument.renameAll_congr {other : String → String} : ∀ {args : List Argument},
    (∀ name ∈ Argument.variablesOfAll args, change name = other name) →
      Argument.renameAll change args = Argument.renameAll other args
  | [], _ => rfl
  | _ :: _, same => by
      obtain ⟨inFirst, inRest⟩ := List.forall_mem_append.1 same
      rw [Argument.renameAll, Argument.renameAll, Argument.rename_congr inFirst, Argument.renameAll_congr inRest]

theorem Argument.renameOption_congr {other : String → String} : ∀ {arg : Option Argument},
    (∀ name ∈ Argument.variablesOfOption arg, change name = other name) →
      Argument.renameOption change arg = Argument.renameOption other arg
  | none, _ => rfl
  | some _, same => congrArg some (Argument.rename_congr same)

theorem Literal.rename_congr {other : String → String} : ∀ {literal : Literal},
    (∀ name ∈ literal.variables, change name = other name) → literal.rename change = literal.rename other
  | .positive _ _, same => congrArg (Literal.positive _) (Argument.renameAll_congr same)
  | .negative _ _, same => congrArg (Literal.negative _) (Argument.renameAll_congr same)
  | .comparison _ _ _, same => by
      obtain ⟨inLeft, inRight⟩ := List.forall_mem_append.1 same
      rw [Literal.rename, Literal.rename, Argument.rename_congr inLeft, Argument.rename_congr inRight]
  | .truth _, _ => rfl

theorem Literal.renameAll_congr {other : String → String} : ∀ {literals : List Literal},
    (∀ name ∈ Literal.variablesOfAll literals, change name = other name) →
      Literal.renameAll change literals = Literal.renameAll other literals
  | [], _ => rfl
  | _ :: _, same => by
      obtain ⟨inFirst, inRest⟩ := List.forall_mem_append.1 same
      rw [Literal.renameAll, Literal.renameAll, Literal.rename_congr inFirst, Literal.renameAll_congr inRest]

end

mutual

/-- A renaming that is undone name by name is undone. -/
theorem Argument.rename_leftInverse {back : String → String} (inverse : Function.LeftInverse back change) :
    ∀ arg : Argument, (arg.rename change).rename back = arg
  | .var name => congrArg Argument.var (inverse name)
  | .unnamed | .constant _ | .counter => rfl
  | .operator _ args => congrArg (Argument.operator _) (Argument.renameAll_leftInverse inverse args)
  | .external _ args => congrArg (Argument.external _) (Argument.renameAll_leftInverse inverse args)
  | .record args => congrArg Argument.record (Argument.renameAll_leftInverse inverse args)
  | .aggregate _ target body => by
      rw [Argument.rename, Argument.rename, Argument.renameOption_leftInverse inverse target,
        Literal.renameAll_leftInverse inverse body]

theorem Argument.renameAll_leftInverse {back : String → String} (inverse : Function.LeftInverse back change) :
    ∀ args : List Argument, Argument.renameAll back (Argument.renameAll change args) = args
  | [] => rfl
  | arg :: args => by
      rw [Argument.renameAll, Argument.renameAll, Argument.rename_leftInverse inverse arg,
        Argument.renameAll_leftInverse inverse args]

theorem Argument.renameOption_leftInverse {back : String → String} (inverse : Function.LeftInverse back change) :
    ∀ arg : Option Argument, Argument.renameOption back (Argument.renameOption change arg) = arg
  | none => rfl
  | some arg => congrArg some (Argument.rename_leftInverse inverse arg)

theorem Literal.rename_leftInverse {back : String → String} (inverse : Function.LeftInverse back change) :
    ∀ literal : Literal, (literal.rename change).rename back = literal
  | .positive _ args => congrArg (Literal.positive _) (Argument.renameAll_leftInverse inverse args)
  | .negative _ args => congrArg (Literal.negative _) (Argument.renameAll_leftInverse inverse args)
  | .comparison _ left right => by
      rw [Literal.rename, Literal.rename, Argument.rename_leftInverse inverse left,
        Argument.rename_leftInverse inverse right]
  | .truth _ => rfl

theorem Literal.renameAll_leftInverse {back : String → String} (inverse : Function.LeftInverse back change) :
    ∀ literals : List Literal, Literal.renameAll back (Literal.renameAll change literals) = literals
  | [] => rfl
  | literal :: literals => by
      rw [Literal.renameAll, Literal.renameAll, Literal.rename_leftInverse inverse literal,
        Literal.renameAll_leftInverse inverse literals]

end

def Aggregate.rename (change : String → String) (aggregate : Aggregate) : Aggregate :=
  ⟨aggregate.function, Argument.renameOption change aggregate.target, Literal.renameAll change aggregate.body⟩

theorem Aggregate.rename_injective (injective : Function.Injective change) :
    Function.Injective (Aggregate.rename change) := by
  obtain ⟨back, inverse⟩ := injective.hasLeftInverse
  refine Function.LeftInverse.injective (g := Aggregate.rename back) fun aggregate => ?_
  rw [Aggregate.rename, Aggregate.rename, Argument.renameOption_leftInverse inverse,
    Literal.renameAll_leftInverse inverse]

/-! ## What renaming does not change -/

mutual

theorem Argument.reads_rename : ∀ arg : Argument, (arg.rename change).reads = arg.reads
  | .var _ | .unnamed | .constant _ | .counter => rfl
  | .operator _ args | .external _ args | .record args => Argument.readsOfAll_rename args
  | .aggregate _ target body => by
      rw [Argument.rename, Argument.reads, Argument.reads, Literal.readsOfAll_rename body,
        Argument.readsOfOption_rename target]

theorem Argument.readsOfAll_rename : ∀ args : List Argument,
    Argument.readsOfAll (Argument.renameAll change args) = Argument.readsOfAll args
  | [] => rfl
  | arg :: args => by
      rw [Argument.renameAll, Argument.readsOfAll, Argument.readsOfAll, Argument.reads_rename arg,
        Argument.readsOfAll_rename args]

theorem Argument.readsOfOption_rename : ∀ arg : Option Argument,
    Argument.readsOfOption (Argument.renameOption change arg) = Argument.readsOfOption arg
  | none => rfl
  | some arg => Argument.reads_rename arg

theorem Literal.reads_rename : ∀ literal : Literal, (literal.rename change).reads = literal.reads
  | .positive relation args | .negative relation args =>
      congrArg (List.cons relation) (Argument.readsOfAll_rename args)
  | .comparison _ left right => by
      rw [Literal.rename, Literal.reads, Literal.reads, Argument.reads_rename left, Argument.reads_rename right]
  | .truth _ => rfl

theorem Literal.readsOfAll_rename : ∀ literals : List Literal,
    Literal.readsOfAll (Literal.renameAll change literals) = Literal.readsOfAll literals
  | [] => rfl
  | literal :: literals => by
      rw [Literal.renameAll, Literal.readsOfAll, Literal.readsOfAll, Literal.reads_rename literal,
        Literal.readsOfAll_rename literals]

end

theorem Literal.positiveAtom?_rename (literal : Literal) :
    (literal.rename change).positiveAtom? = literal.positiveAtom?.map (Atom.rename change) := by
  cases literal <;> rfl

theorem Literal.negatedAtom?_rename (literal : Literal) :
    (literal.rename change).negatedAtom? = literal.negatedAtom?.map (Atom.rename change) := by
  cases literal <;> rfl

theorem Literal.isConstraint_rename (literal : Literal) :
    (literal.rename change).isConstraint = literal.isConstraint := by
  cases literal <;> rfl

theorem Atom.arity_rename (atom : Atom) : (atom.rename change).arity = atom.arity := by
  rw [Atom.arity, Atom.arity, Atom.rename, Argument.renameAll_eq_map, List.length_map]

theorem positiveAtoms_renameAll (literals : List Literal) :
    (Literal.renameAll change literals).filterMap Literal.positiveAtom? =
      (literals.filterMap Literal.positiveAtom?).map (Atom.rename change) := by
  rw [Literal.renameAll_eq_map, List.filterMap_map, List.map_filterMap]
  exact List.filterMap_congr fun literal _ => literal.positiveAtom?_rename

namespace Clause

theorem positiveAtoms_rename (clause : Clause) :
    (clause.rename change).positiveAtoms = clause.positiveAtoms.map (Atom.rename change) :=
  positiveAtoms_renameAll clause.body

theorem negatedAtoms_rename (clause : Clause) :
    (clause.rename change).negatedAtoms = clause.negatedAtoms.map (Atom.rename change) := by
  rw [negatedAtoms, negatedAtoms, Clause.rename, Literal.renameAll_eq_map, List.filterMap_map, List.map_filterMap]
  exact List.filterMap_congr fun literal _ => literal.negatedAtom?_rename

theorem constraintsLast_rename (clause : Clause) :
    (clause.rename change).constraintsLast = clause.constraintsLast.map (Literal.rename change) := by
  have kept {keeps : Literal → Bool} (same : ∀ literal, keeps (Literal.rename change literal) = keeps literal) :
      (Literal.renameAll change clause.body).filter keeps = (clause.body.filter keeps).map (Literal.rename change) := by
    rw [Literal.renameAll_eq_map, List.filter_map]
    exact congrArg _ (List.filter_congr fun literal _ => same literal)
  have others := @kept (fun literal => !literal.isConstraint) fun literal => by rw [literal.isConstraint_rename]
  rw [constraintsLast, constraintsLast, List.map_append, constraints, constraints]
  exact congrArg₂ (· ++ ·) others (kept Literal.isConstraint_rename)

theorem isFact_rename (clause : Clause) : (clause.rename change).isFact = clause.isFact := by
  rw [isFact, isFact, Clause.rename, Literal.renameAll_eq_map, List.isEmpty_map]

theorem reads_rename (clause : Clause) : (clause.rename change).reads = clause.reads :=
  Literal.readsOfAll_rename clause.body

end Clause

/-! ## Analyses -/

/-- An entry of the list of clauses with its position, renamed. -/
def renameEntry (change : Nat → String → String) (entry : Clause × Nat) : Clause × Nat :=
  (entry.1.rename (change entry.2), entry.2)

section Programs

variable {program : Program} {change : Nat → String → String}

theorem Program.numberedClauses_rename :
    (program.rename change).numberedClauses = program.numberedClauses.map (renameEntry change) := by
  refine List.ext_getElem? fun id => ?_
  rw [Program.numberedClauses, Program.numberedClauses, Program.rename, List.getElem?_zipIdx, List.getElem?_mapIdx,
    List.getElem?_map, List.getElem?_zipIdx, Nat.zero_add]
  cases program.clauses[id]? <;> rfl

theorem Program.clausesOf_rename (name : Name) :
    (program.rename change).clausesOf name = (program.clausesOf name).map (renameEntry change) := by
  rw [Program.clausesOf, Program.clausesOf, Program.numberedClauses_rename, List.filter_map]
  rfl

/-- What does not depend on the names of variables is the same for all clauses. -/
theorem Program.map_clauses_rename {β : Type} {view : Clause → β}
    (same : ∀ (clause : Clause) (change : String → String), view (clause.rename change) = view clause) :
    (program.rename change).clauses.map view = program.clauses.map view := by
  refine List.ext_getElem? fun id => ?_
  rw [Program.rename, List.getElem?_map, List.getElem?_mapIdx, List.getElem?_map]
  cases program.clauses[id]? with
  | none => rfl
  | some clause => exact congrArg some (same clause (change id))

namespace Analysis

theorem readGraph_rename : readGraph (program.rename change) = readGraph program := by
  have views (program : Program) (edges : List (List Nat)) :
      program.clauses.foldl
          (fun edges clause => noteReads program.relationNames edges clause.head.relation clause.reads) edges =
        (program.clauses.map fun clause => (clause.head.relation, clause.reads)).foldl
          (fun edges view => noteReads program.relationNames edges view.1 view.2) edges := by
    rw [List.foldl_map]
  have same := @Program.map_clauses_rename program change _ (fun clause => (clause.head.relation, clause.reads))
    fun clause change => by rw [clause.reads_rename]; rfl
  simp only [readGraph, views, same]
  rfl

theorem strata_rename : strata (program.rename change) = strata program := by
  rw [strata, strata, readGraph_rename]
  rfl

theorem leadsTo_rename : leadsTo (program.rename change) = leadsTo program := by
  funext name
  have atoms : (fun entry => (renameEntry change entry).1.positiveAtoms.map Atom.relation) =
      fun entry : Clause × Nat => entry.1.positiveAtoms.map Atom.relation := by
    funext entry
    rw [renameEntry, Clause.positiveAtoms_rename, List.map_map]
    rfl
  rw [leadsTo, leadsTo, Program.clausesOf_rename, List.flatMap_map]
  simp only [atoms]
  rfl

theorem isRecursive_rename (clause : Clause) (other : String → String) :
    isRecursive (program.rename change) (clause.rename other) = isRecursive program clause := by
  have start : (clause.rename other).positiveAtoms.map Atom.relation = clause.positiveAtoms.map Atom.relation := by
    rw [Clause.positiveAtoms_rename, List.map_map]
    rfl
  rw [isRecursive, isRecursive, leadsTo_rename, start]
  rfl

theorem expirations_rename (strata : List Stratum) :
    expirations (program.rename change) strata = expirations program strata := by
  have reads : (fun entry => (renameEntry change entry).1.reads) = fun entry : Clause × Nat => entry.1.reads := by
    funext entry
    exact entry.1.reads_rename
  have same : touched (program.rename change) = touched program := by
    funext stratum
    simp only [touched_eq_foldl, Stratum.reads, Program.clausesOf_rename, List.flatMap_map, reads]
  have pass : Retreat.pass (program.rename change) = Retreat.pass program := rfl
  rw [expirations, expirations, same, pass]

theorem schedule_rename (strata : List Stratum) :
    schedule (program.rename change) strata = schedule program strata := by
  rw [schedule, schedule, expirations_rename]

end Analysis

end Programs

namespace Lowering

/-! ## Aggregates -/

mutual

theorem Argument.aggregates_rename : ∀ arg : Argument,
    Argument.aggregates (arg.rename change) = (Argument.aggregates arg).map (Aggregate.rename change)
  | .var _ | .unnamed | .constant _ | .counter | .aggregate _ _ _ => rfl
  | .operator _ args | .external _ args | .record args => Argument.aggregatesOfAll_rename args

theorem Argument.aggregatesOfAll_rename : ∀ args : List Argument,
    Argument.aggregatesOfAll (Argument.renameAll change args) =
      (Argument.aggregatesOfAll args).map (Aggregate.rename change)
  | [] => rfl
  | arg :: args => by
      rw [Argument.renameAll, Argument.aggregatesOfAll, Argument.aggregatesOfAll, List.map_append,
        Argument.aggregates_rename arg, Argument.aggregatesOfAll_rename args]

end

theorem Literal.aggregates_rename (literal : Literal) :
    Literal.aggregates (literal.rename change) = (Literal.aggregates literal).map (Aggregate.rename change) := by
  cases literal with
  | positive _ args | negative _ args => exact Argument.aggregatesOfAll_rename args
  | comparison _ left right =>
      rw [Literal.rename, Literal.aggregates, Literal.aggregates, List.map_append, Argument.aggregates_rename left,
        Argument.aggregates_rename right]
  | truth _ => rfl

/-- Where no two elements are confused, the first occurrences stay the first occurrences. -/
theorem eraseDups_map {α β : Type} [DecidableEq α] [DecidableEq β] {f : α → β} (list : List α)
    (injective : ∀ a ∈ list, ∀ b ∈ list, f a = f b → a = b) : (list.map f).eraseDups = list.eraseDups.map f := by
  match list with
  | [] => rfl
  | first :: rest =>
      have kept : (rest.map f).filter (fun other => !other == f first) =
          (rest.filter fun other => !other == first).map f := by
        rw [List.filter_map]
        refine congrArg _ (List.filter_congr fun other member => ?_)
        have same : f other = f first ↔ other = first :=
          ⟨injective other (List.mem_cons_of_mem _ member) first List.mem_cons_self, congrArg f⟩
        simp only [Function.comp_apply, beq_eq_decide, same]
      have others := eraseDups_map (rest.filter fun other => !other == first) fun a isA b isB =>
        injective a (List.mem_cons_of_mem _ (List.mem_of_mem_filter isA)) b
          (List.mem_cons_of_mem _ (List.mem_of_mem_filter isB))
      rw [List.map_cons, List.eraseDups_cons, List.eraseDups_cons, List.map_cons, kept, others]
termination_by list.length
decreasing_by
  have shorter := List.length_filter_le (fun other => !other == first) rest
  simp only [List.length_cons]
  omega

theorem clauseAggregates_rename (injective : Function.Injective change) (clause : Clause) :
    clauseAggregates (clause.rename change) = (clauseAggregates clause).map (Aggregate.rename change) := by
  have inBody : (Literal.renameAll change clause.body).flatMap Literal.aggregates =
      (clause.body.flatMap Literal.aggregates).map (Aggregate.rename change) := by
    rw [Literal.renameAll_eq_map, List.flatMap_map, List.map_flatMap]
    simp only [Literal.aggregates_rename]
  rw [clauseAggregates, clauseAggregates,
    ← eraseDups_map _ fun _ _ _ _ same => Aggregate.rename_injective injective same, List.map_append, ← inBody,
    ← Argument.aggregatesOfAll_rename]
  rfl

/-! ## Sites -/

/-- Rename the keys of sites. -/
def Sites.rename (change : String → String) (sites : Sites) : Sites where
  named := sites.named.map (Prod.map change id)
  aggregates := sites.aggregates.map (Prod.map (Aggregate.rename change) id)

/-- Renaming keys finds the same entries. -/
theorem lookup_map {α β γ : Type} [DecidableEq α] [DecidableEq β] {f : α → β} (injective : Function.Injective f)
    (key : α) (entries : List (α × γ)) : (entries.map (Prod.map f id)).lookup (f key) = entries.lookup key := by
  induction entries with
  | nil => rfl
  | cons entry rest ih =>
      rw [List.map_cons, Prod.map, List.lookup_cons, List.lookup_cons, ih]
      simp only [beq_eq_decide, injective.eq_iff, id_eq]

namespace Sites

variable (injective : Function.Injective change) (sites : Sites)

include injective

theorem definition?_rename (name : String) :
    (sites.rename change).definition? (change name) = sites.definition? name := by
  rw [definition?, definition?, rename, lookup_map injective]

theorem defines_rename (name : String) : (sites.rename change).defines (change name) = sites.defines name := by
  rw [defines, defines, rename, lookup_map injective]

theorem aggregate?_rename (aggregate : Aggregate) :
    (sites.rename change).aggregate? (aggregate.rename change) = sites.aggregate? aggregate := by
  rw [aggregate?, aggregate?, rename, lookup_map (Aggregate.rename_injective injective)]

theorem addVariable_rename (name : String) (site : Site) :
    (sites.rename change).addVariable (change name) site = (sites.addVariable name site).rename change := by
  have added (named : List (String × List Site)) :
      addTo (change name) site (named.map (Prod.map change id)) = (addTo name site named).map (Prod.map change id) := by
    induction named with
    | nil => rfl
    | cons entry rest ih =>
        by_cases same : entry.1 = name
        · simp [addTo, same]
        · simp [addTo, same, injective.eq_iff, ih]
  rw [addVariable, addVariable, rename, rename, added]

theorem introduced?_rename (arg : Argument) :
    introduced? (sites.rename change) (arg.rename change) = (introduced? sites arg).map change := by
  cases arg with
  | var name =>
      rw [Argument.rename, introduced?, introduced?, defines_rename injective]
      split <;> rfl
  | unnamed | constant | operator | external | aggregate | record | counter => rfl

end Sites

section Frames

variable (injective : Function.Injective change)

include injective

theorem addAtomSites_rename (sites : Sites) (tuple : Nat) (atom : Atom) :
    addAtomSites (sites.rename change) tuple (atom.rename change) = (addAtomSites sites tuple atom).rename change := by
  rw [addAtomSites, addAtomSites, Atom.rename, Argument.renameAll_eq_map, List.zipIdx_map, List.foldl_map]
  refine List.foldl_hom (Sites.rename change) fun sites entry => ?_
  obtain ⟨arg, column⟩ := entry
  cases arg with
  | var name => exact sites.addVariable_rename injective name ⟨tuple, column⟩
  | unnamed | constant | operator | external | aggregate | record | counter => rfl

theorem addResultSite_rename (sites : Sites) (literal : Literal) :
    addResultSite (sites.rename change) (literal.rename change) = (addResultSite sites literal).rename change := by
  have bound (name : String) (aggregate : Aggregate) :
      addResultSite.bindResult (sites.rename change) (change name) (aggregate.rename change) =
        (addResultSite.bindResult sites name aggregate).rename change := by
    rw [addResultSite.bindResult, addResultSite.bindResult, sites.defines_rename injective,
      sites.aggregate?_rename injective]
    split
    · rfl
    · cases sites.aggregate? aggregate with
      | none => rfl
      | some site => exact sites.addVariable_rename injective name site
  cases literal with
  | positive | negative | truth => rfl
  | comparison op left right =>
      cases op with
      | eq =>
          cases left with
          | var name =>
              cases right with
              | aggregate function target body => exact bound name ⟨function, target, body⟩
              | var | unnamed | constant | operator | external | record | counter => rfl
          | aggregate function target body =>
              cases right with
              | var name => exact bound name ⟨function, target, body⟩
              | aggregate | unnamed | constant | operator | external | record | counter => rfl
          | unnamed | constant | operator | external | record | counter => rfl
      | _ => rfl

/-- Rename the variables in a frame. -/
def Frame.rename (change : String → String) (frame : Frame) : Frame :=
  ⟨frame.sites.rename change, frame.atoms.map (Atom.rename change), frame.aggregates.map (Aggregate.rename change)⟩

end Frames

/-! ## Slots -/

namespace Slots

def rename (change : String → String) (slots : Slots) : Slots :=
  ⟨slots.names.map change, slots.erased.map change⟩

theorem size_rename (change : String → String) (slots : Slots) : (slots.rename change).size = slots.size :=
  List.length_map change

theorem slot?_rename (injective : Function.Injective change) (slots : Slots) (name : String) :
    (slots.rename change).slot? (change name) = slots.slot? name := by
  rw [slot?, slot?, rename, List.idxOf?, List.idxOf?, List.findIdx?_map]
  congr 1
  funext other
  simp only [Function.comp_apply, beq_eq_decide, injective.eq_iff]

theorem sites_rename (injective : Function.Injective change) (slots : Slots) :
    (slots.rename change).sites = slots.sites.rename change := by
  rw [sites, sites, rename, ← List.map_append, List.zipIdx_map, List.foldl_map]
  refine @List.foldl_hom _ _ _ (Sites.rename change) _ _ _ Sites.empty fun sites entry => ?_
  exact sites.addVariable_rename injective entry.1 ⟨entry.2, 0⟩

/-- Reads are redirected by the numbers of slots only. -/
theorem redirect_rename (change : String → String) (slots : Slots) {ρ : Type} :
    @redirect ρ (slots.rename change) = @redirect ρ slots := by
  have erased : (slots.rename change).erased.length = slots.erased.length := List.length_map change
  funext node
  cases node with
  | element tuple column => rw [redirect, redirect, size_rename, erased]
  | _ => rfl

theorem redirectExpr_rename (change : String → String) (slots : Slots) :
    (slots.rename change).redirectExpr = slots.redirectExpr := by
  funext value
  rw [redirectExpr, redirectExpr, redirect_rename, redirect_rename]

theorem redirectCond_rename (change : String → String) (slots : Slots) :
    (slots.rename change).redirectCond = slots.redirectCond := by
  funext condition
  rw [redirectCond, redirectCond, redirect_rename, redirect_rename]

end Slots

theorem clauseVariables_rename (clause : Clause) :
    clauseVariables (clause.rename change) = (clauseVariables clause).map change := by
  rw [clauseVariables, clauseVariables, List.map_append]
  exact congrArg₂ (· ++ ·) (Literal.variablesOfAll_rename clause.body) (Argument.variablesOfAll_rename clause.head.args)

/-- A renaming keeps the variables of a clause apart and keeps their kinds. -/
structure Admissible (change : String → String) (clause : Clause) : Prop where
  injective : ∀ name ∈ clauseVariables clause, ∀ other ∈ clauseVariables clause,
    change name = change other → name = other
  underscore : ∀ name ∈ clauseVariables clause, isUnderscoreVariable (change name) = isUnderscoreVariable name
  level : ∀ name ∈ clauseVariables clause, isLevelVariable (change name) = isLevelVariable name

namespace Admissible

variable {clause : Clause} (admissible : Admissible change clause)

include admissible

/-- The slots of a renamed clause are the renamed slots. -/
theorem ofClause_rename : Slots.ofClause (clause.rename change) = (Slots.ofClause clause).rename change := by
  have kept {kind : String → Bool} (same : ∀ name ∈ clauseVariables clause, kind (change name) = kind name) :
      (clauseVariables (clause.rename change)).filter kind = ((clauseVariables clause).filter kind).map change := by
    rw [clauseVariables_rename, List.filter_map]
    exact congrArg _ (List.filter_congr same)
  have erase {names : List String} (areVariables : ∀ name ∈ names, name ∈ clauseVariables clause) :
      (names.map change).eraseDups = names.eraseDups.map change :=
    eraseDups_map names fun name member other also =>
      admissible.injective name (areVariables name member) other (areVariables other also)
  have named := @kept (fun name => !isLevelVariable name && !isUnderscoreVariable name) fun name member => by
    rw [admissible.level name member, admissible.underscore name member]
  have both (name : String) (member : name ∈ ((clauseVariables clause).filter fun name =>
      !isLevelVariable name && !isUnderscoreVariable name).eraseDups ++
        (clauseVariables clause).filter isUnderscoreVariable) : name ∈ clauseVariables clause := by
    rcases List.mem_append.1 member with member | member
    · exact List.mem_of_mem_filter (List.mem_eraseDups.1 member)
    · exact List.mem_of_mem_filter member
  simp only [Slots.ofClause, Slots.addUnderscores, Slots.addNamed, Slots.empty, Slots.rename, List.nil_append, named,
    kept admissible.underscore, kept admissible.level]
  rw [erase fun _ => List.mem_of_mem_filter, erase fun _ => List.mem_of_mem_filter, ← List.map_append, erase both]

/-- It depends on the variables of the clause only. -/
theorem congr {other : String → String} (same : ∀ name ∈ clauseVariables clause, change name = other name) :
    Admissible other clause where
  injective := by
    intro name member otherName also isSame
    rw [← same name member, ← same otherName also] at isSame
    exact admissible.injective name member otherName also isSame
  underscore := fun name member => same name member ▸ admissible.underscore name member
  level := fun name member => same name member ▸ admissible.level name member

/-- A permutation of all names renames the clause in the same way. -/
theorem exists_permutation : ∃ permutation : Equiv.Perm String,
    ∀ name ∈ clauseVariables clause, permutation name = change name := by
  have injective : Set.InjOn change {name | name ∈ clauseVariables clause} :=
    fun name member other also => admissible.injective name member other also
  have few : Cardinal.mk {name | name ∈ clauseVariables clause} < Cardinal.mk String :=
    (List.finite_toSet (clauseVariables clause)).lt_aleph0.trans_le (Cardinal.aleph0_le_mk String)
  obtain ⟨permutation, same⟩ := Cardinal.extend_function_of_lt ⟨_, injective.injective⟩ few ⟨Equiv.refl String⟩
  exact ⟨permutation, fun name member => same ⟨name, member⟩⟩

end Admissible

theorem clause_rename_congr {other : String → String} {clause : Clause}
    (same : ∀ name ∈ clauseVariables clause, change name = other name) :
    clause.rename change = clause.rename other := by
  obtain ⟨inBody, inHead⟩ := List.forall_mem_append.1 same
  rw [Clause.rename, Clause.rename, Atom.rename, Atom.rename, Literal.renameAll_congr inBody,
    Argument.renameAll_congr inHead]

end Lowering

end DatalogRam
