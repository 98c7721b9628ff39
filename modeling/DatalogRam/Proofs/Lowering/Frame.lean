import DatalogRam.Lowering.Clause
import DatalogRam.Proofs.Datalog.Fragment

/-!
# Where a simple clause reads its variables

The definition of a variable is its first occurrence as an argument of a positive body atom. A simple clause has
no aggregates, so its frame holds nothing else.
-/

namespace DatalogRam.Lowering

namespace Sites

theorem lookup_addTo (name other : String) (site : Site) (entries : List (String × List Site)) :
    (addTo name site entries).lookup other =
      if other = name then some ((entries.lookup name).getD [] ++ [site]) else entries.lookup other := by
  induction entries with
  | nil => grind [addTo]
  | cons entry rest ih => grind [addTo]

/-- A new site of a variable defines it only if none did before. -/
theorem definition?_addVariable (sites : Sites) (name other : String) (site : Site) :
    (sites.addVariable name site).definition? other =
      (sites.definition? other).or (if other = name then some site else none) := by
  rw [definition?, addVariable, lookup_addTo]
  by_cases same : other = name
  · subst same
    rw [if_pos rfl, if_pos rfl, definition?]
    cases sites.named.lookup other with
    | none => rfl
    | some found => cases found <;> rfl
  · rw [if_neg same, if_neg same, Option.or_none]
    rfl

end Sites

/-- The variables that are arguments of an atom, with their sites. -/
def atomOccurrences (entry : Atom × Nat) : List (String × Site) :=
  entry.1.args.zipIdx.filterMap fun argument =>
    match argument.1 with
    | .var name => some (name, ⟨entry.2, argument.2⟩)
    | _ => none

/-- The variables that are arguments of atoms, with their sites. -/
def occurrences (atoms : List Atom) : List (String × Site) :=
  atoms.zipIdx.flatMap atomOccurrences

theorem addAtomSites_eq (sites : Sites) (entry : Atom × Nat) :
    addAtomSites sites entry.2 entry.1 =
      (atomOccurrences entry).foldl (fun sites occurrence => sites.addVariable occurrence.1 occurrence.2)
        sites := by
  rw [addAtomSites, atomOccurrences, List.foldl_filterMap]
  congr 1
  funext sites argument
  obtain ⟨arg, column⟩ := argument
  cases arg <;> rfl

theorem definition?_foldl (found : List (String × Site)) (sites : Sites) (name : String) :
    (found.foldl (fun sites occurrence => sites.addVariable occurrence.1 occurrence.2) sites).definition? name =
      (sites.definition? name).or (found.lookup name) := by
  induction found generalizing sites with
  | nil => rw [List.foldl_nil, List.lookup_nil, Option.or_none]
  | cons occurrence rest ih =>
      rw [List.foldl_cons, ih, Sites.definition?_addVariable, Option.or_assoc, List.lookup_cons]
      by_cases same : name = occurrence.1
      · simp [same]
      · simp [same, beq_false_of_ne same]

/-- The sites of the variables of atoms. -/
def atomSites (atoms : List Atom) : Sites :=
  atoms.zipIdx.foldl (fun sites (atom, tuple) => addAtomSites sites tuple atom) Sites.empty

theorem atomSites_eq (atoms : List Atom) :
    atomSites atoms =
      (occurrences atoms).foldl (fun sites occurrence => sites.addVariable occurrence.1 occurrence.2)
        Sites.empty := by
  rw [occurrences, List.foldl_flatMap, atomSites]
  congr 1
  funext sites entry
  exact addAtomSites_eq sites entry

theorem definition?_atomSites (atoms : List Atom) (name : String) :
    (atomSites atoms).definition? name = (occurrences atoms).lookup name := by
  rw [atomSites_eq, definition?_foldl]
  rfl

theorem mem_atomOccurrences {entry : Atom × Nat} {name : String} {site : Site} :
    (name, site) ∈ atomOccurrences entry ↔
      entry.2 = site.tuple ∧ entry.1.args[site.column]? = some (.var name) := by
  rw [atomOccurrences, List.mem_filterMap]
  constructor
  · rintro ⟨⟨arg, column⟩, member, found⟩
    cases arg with
    | var other =>
        simp only [Option.some.injEq, Prod.mk.injEq] at found
        obtain ⟨rfl, rfl⟩ := found
        exact ⟨rfl, List.mem_zipIdx_iff_getElem?.1 member⟩
    | _ => cases found
  · rintro ⟨sameTuple, found⟩
    refine ⟨(.var name, site.column), List.mem_zipIdx_iff_getElem?.2 found, ?_⟩
    rw [sameTuple]

theorem mem_occurrences {atoms : List Atom} {name : String} {site : Site} :
    (name, site) ∈ occurrences atoms ↔
      ∃ atom, atoms[site.tuple]? = some atom ∧ atom.args[site.column]? = some (.var name) := by
  rw [occurrences, List.mem_flatMap]
  constructor
  · rintro ⟨⟨atom, tuple⟩, member, occurs⟩
    obtain ⟨rfl, found⟩ := mem_atomOccurrences.1 occurs
    exact ⟨atom, List.mem_zipIdx_iff_getElem?.1 member, found⟩
  · rintro ⟨atom, atTuple, found⟩
    exact ⟨(atom, site.tuple), List.mem_zipIdx_iff_getElem?.2 atTuple, mem_atomOccurrences.2 ⟨rfl, found⟩⟩

/-- A variable is an argument where it is defined. -/
theorem argument_of_definition {atoms : List Atom} {name : String} {site : Site}
    (defined : (atomSites atoms).definition? name = some site) :
    ∃ atom, atoms[site.tuple]? = some atom ∧ atom.args[site.column]? = some (.var name) := by
  rw [definition?_atomSites, List.lookup_eq_some_iff] at defined
  obtain ⟨before, after, split, _⟩ := defined
  have member : (name, site) ∈ occurrences atoms := by
    rw [split]
    simp
  exact mem_occurrences.1 member

/-- A variable is defined no later than in any atom of which it is an argument. -/
theorem definition_of_argument {atoms : List Atom} {tuple : Nat} {atom : Atom} {name : String}
    (atTuple : atoms[tuple]? = some atom) (argument : .var name ∈ atom.args) :
    ∃ site, (atomSites atoms).definition? name = some site ∧ site.tuple ≤ tuple := by
  -- The variable occurs in the atoms up to this one, so it is defined among them.
  obtain ⟨column, atColumn⟩ := List.getElem?_of_mem argument
  have inFirst : (name, ⟨tuple, column⟩) ∈ occurrences (atoms.take (tuple + 1)) := by
    refine mem_occurrences.2 ⟨atom, ?_, atColumn⟩
    rw [List.getElem?_take_of_lt (Nat.lt_succ_self tuple), atTuple]
  obtain ⟨site, found⟩ : ∃ site, (occurrences (atoms.take (tuple + 1))).lookup name = some site :=
    Option.isSome_iff_exists.1 (List.lookup_isSome_iff.2 ⟨_, inFirst, beq_self_eq_true name⟩)
  refine ⟨site, ?_, ?_⟩
  · rw [definition?_atomSites, occurrences]
    nth_rewrite 1 [← List.take_append_drop (tuple + 1) atoms]
    rw [List.zipIdx_append, List.flatMap_append, List.lookup_append]
    change ((occurrences (atoms.take (tuple + 1))).lookup name).or _ = _
    rw [found, Option.some_or]
  · rw [← definition?_atomSites] at found
    obtain ⟨defining, atSite, _⟩ := argument_of_definition found
    obtain ⟨inside, _⟩ := List.getElem?_eq_some_iff.1 atSite
    rw [List.length_take] at inside
    omega

/-! ## Frames of simple clauses -/

mutual

theorem aggregates_of_isTerm : ∀ {arg : Argument}, arg.isTerm = true → Argument.aggregates arg = []
  | .var _, _ => rfl
  | .constant _, _ => rfl
  | .operator _ args, term => by
      simp only [Argument.isTerm, Bool.and_eq_true] at term
      rw [Argument.aggregates, aggregates_of_areTerms term.2]
  | .unnamed, _ => rfl
  | .external _ _, term => by simp [Argument.isTerm] at term
  | .aggregate _ _ _, term => by simp [Argument.isTerm] at term
  | .record _, term => by simp [Argument.isTerm] at term
  | .counter, _ => rfl

theorem aggregates_of_areTerms :
    ∀ {args : List Argument}, Argument.areTerms args = true → Argument.aggregatesOfAll args = []
  | [], _ => rfl
  | arg :: args, terms => by
      simp only [Argument.areTerms, Bool.and_eq_true] at terms
      rw [Argument.aggregatesOfAll, aggregates_of_isTerm terms.1, aggregates_of_areTerms terms.2,
        List.nil_append]

end

theorem aggregates_of_plain {args : List Argument}
    (plain : ∀ arg ∈ args, arg = .unnamed ∨ arg.isTerm = true) : Argument.aggregatesOfAll args = [] := by
  induction args with
  | nil => rfl
  | cons arg args ih =>
      have first : Argument.aggregates arg = [] := by
        rcases plain arg List.mem_cons_self with rfl | term
        · rfl
        · exact aggregates_of_isTerm term
      rw [Argument.aggregatesOfAll, first, ih fun other member => plain other (List.mem_cons_of_mem _ member),
        List.nil_append]

variable {plan : Plan} {clause : Clause}

theorem clauseAggregates_of_simple (simple : clause.Simple) : clauseAggregates clause = [] := by
  have body : clause.body.flatMap Literal.aggregates = [] := by
    rw [List.flatMap_eq_nil_iff]
    intro literal member
    cases literal with
    | positive relation args =>
        have isAtom : (⟨relation, args⟩ : Atom) ∈ clause.positiveAtoms := Clause.mem_positiveAtoms.2 member
        exact aggregates_of_plain fun arg isArg => Argument.isDirect_plain (simple.positive _ isAtom arg isArg)
    | negative relation args =>
        have isAtom : (⟨relation, args⟩ : Atom) ∈ clause.negatedAtoms := Clause.mem_negatedAtoms.2 member
        exact aggregates_of_plain (simple.negated _ isAtom)
    | comparison op left right =>
        obtain ⟨leftTerm, rightTerm⟩ := simple.compared op left right member
        rw [Literal.aggregates, aggregates_of_isTerm leftTerm, aggregates_of_isTerm rightTerm, List.nil_append]
    | truth value => rfl
  rw [clauseAggregates, body, aggregates_of_plain fun arg member => .inr (simple.head arg member)]
  rfl

theorem addResultSite_of_isTerm {literal : Literal} (sites : Sites)
    (terms : ∀ op left right, literal = .comparison op left right → left.isTerm = true ∧ right.isTerm = true) :
    addResultSite sites literal = sites := by
  cases literal with
  | comparison op left right =>
      obtain ⟨leftTerm, rightTerm⟩ := terms op left right rfl
      unfold addResultSite
      split
      · next _ found =>
          cases found
          simp [Argument.isTerm] at rightTerm
      · next _ found =>
          cases found
          simp [Argument.isTerm] at leftTerm
      · rfl
  | _ => rfl

/-- The frame of a simple clause, without aggregates. -/
def simpleFrame (clause : Clause) : Frame :=
  ⟨atomSites clause.positiveAtoms, clause.positiveAtoms, []⟩

/-- There is a frame if the relations of the atoms are declared. -/
theorem toOption_requireAll (plan : Plan) (atoms : List Atom) (frame : Frame) :
    ((atoms.forM fun atom => discard (plan.requireRelation atom.relation)) >>= fun _ => pure frame).toOption =
      if atoms.all (fun atom => plan.program.declares atom.relation) then some frame else none := by
  induction atoms with
  | nil => rfl
  | cons atom rest ih =>
      change ((discard (plan.requireRelation atom.relation) >>= fun _ => rest.forM _) >>= _).toOption = _
      rw [List.all_cons, Plan.requireRelation, Program.declares]
      cases plan.program.relation? atom.relation with
      | none => rfl
      | some relation => exact ih

/-- A simple clause has a frame if its positive atoms name declared relations. -/
theorem frameOf_simple (simple : clause.Simple) :
    (frameOf plan clause).toOption =
      if clause.positiveAtoms.all (fun atom => plan.program.declares atom.relation) then
        some (simpleFrame clause)
      else none := by
  have results : clause.body.foldl addResultSite (atomSites clause.positiveAtoms) =
      atomSites clause.positiveAtoms := by
    have unchanged : ∀ literals : List Literal, literals ⊆ clause.body →
        literals.foldl addResultSite (atomSites clause.positiveAtoms) = atomSites clause.positiveAtoms := by
      intro literals
      induction literals with
      | nil => exact fun _ => rfl
      | cons literal rest ih =>
          intro within
          have same : addResultSite (atomSites clause.positiveAtoms) literal = _ :=
            addResultSite_of_isTerm _ fun op left right found =>
              simple.compared op left right (found ▸ within List.mem_cons_self)
          rw [List.foldl_cons, same]
          exact ih fun other member => within (List.mem_cons_of_mem _ member)
    exact unchanged clause.body (List.Subset.refl _)
  rw [frameOf, clauseAggregates_of_simple simple]
  change (_ >>= fun _ => Pure.pure (Frame.mk
    (clause.body.foldl addResultSite (atomSites clause.positiveAtoms)) _ _) : Except _ _).toOption = _
  rw [results]
  exact toOption_requireAll plan clause.positiveAtoms (simpleFrame clause)

end DatalogRam.Lowering
