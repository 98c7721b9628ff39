import DatalogRam.Proofs.Analysis.Kinds
import Mathlib.Data.List.Perm.Subperm

/-!
# The resolution of types

`Resolves` describes the search for kinds without a bound on its depth: a name is known, or under way, or undeclared,
or its definition is looked at with the name under way. The search ends, with one outcome, since names under way are
distinct declared ones.

Two invariants carry the search. The kinds known are right ones, whatever was looked at before, and each name under
way needs the name that is looked at. So a name that is met again while it is under way needs itself, and a kind that
is known spares a search without changing its answer.
-/

namespace DatalogRam.Analysis

/-- What a search looks at. -/
inductive Question where
  | kindOf (underWay : List String) (name : String)
  | definition (underWay : List String) (name : String) (definition : TypeDefinition)
  /-- The members of a union that are left, when those before share a kind. -/
  | members (underWay : List String) (union : String) (shared : Option Kind) (names : List String)

/-- The type whose kind is looked for. -/
def Question.subject : Question → String
  | .kindOf _ name => name
  | .definition _ name _ => name
  | .members _ union _ _ => union

/-- The kind of a name, and the kinds known by then. -/
abbrev Outcome := Except TypeError (Kind × Kinds)

/-- A kind that was found is known from then on. -/
def Outcome.remember (name : String) (outcome : Outcome) : Outcome :=
  outcome.map fun found => (found.1, (name, found.1) :: found.2)

/-- A question that is looked at with some kinds known has an outcome. -/
inductive Resolves (types : List TypeDecl) : Question → Kinds → Outcome → Prop where
  | known {underWay : List String} {name : String} {known : Kinds} {kind : Kind} :
      known.lookup name = some kind → Resolves types (.kindOf underWay name) known (.ok (kind, known))
  | cyclic {underWay : List String} {name : String} {known : Kinds} :
      known.lookup name = none → name ∈ underWay →
      Resolves types (.kindOf underWay name) known (.error (.cyclic name))
  | undeclared {underWay : List String} {name : String} {known : Kinds} :
      known.lookup name = none → name ∉ underWay → definition? types name = none →
      Resolves types (.kindOf underWay name) known (.error (.undeclared name))
  | opened {underWay : List String} {name : String} {known : Kinds} {definition : TypeDefinition} {outcome : Outcome} :
      known.lookup name = none → name ∉ underWay → definition? types name = some definition →
      Resolves types (.definition (name :: underWay) name definition) known outcome →
      Resolves types (.kindOf underWay name) known (outcome.remember name)
  | derived {underWay : List String} {name : String} {known : Kinds} {definition : TypeDefinition} {base : Name}
      {outcome : Outcome} : definition.base? = some base →
      Resolves types (.kindOf underWay base.text) known outcome →
      Resolves types (.definition underWay name definition) known outcome
  | record {underWay : List String} {name : String} {known : Kinds} {fields : List Attribute} :
      Resolves types (.definition underWay name (.record fields)) known (.ok (.record, known))
  | union {underWay : List String} {name : String} {known : Kinds} {members : List Name} {outcome : Outcome} :
      Resolves types (.members underWay name none (members.map Name.text)) known outcome →
      Resolves types (.definition underWay name (.union members)) known outcome
  | empty {underWay : List String} {union : String} {known : Kinds} :
      Resolves types (.members underWay union none []) known (.error (.mixedUnion union))
  | shared {underWay : List String} {union : String} {known : Kinds} {kind : Kind} :
      Resolves types (.members underWay union (some kind) []) known (.ok (kind, known))
  | failed {underWay : List String} {union name : String} {shared : Option Kind} {names : List String} {known : Kinds}
      {error : TypeError} : Resolves types (.kindOf underWay name) known (.error error) →
      Resolves types (.members underWay union shared (name :: names)) known (.error error)
  | differs {underWay : List String} {union name : String} {shared : Option Kind} {names : List String}
      {known after : Kinds} {kind : Kind} : Resolves types (.kindOf underWay name) known (.ok (kind, after)) →
      shared.all (· == kind) = false →
      Resolves types (.members underWay union shared (name :: names)) known (.error (.mixedUnion union))
  | agrees {underWay : List String} {union name : String} {shared : Option Kind} {names : List String}
      {known after : Kinds} {kind : Kind} {outcome : Outcome} :
      Resolves types (.kindOf underWay name) known (.ok (kind, after)) → shared.all (· == kind) = true →
      Resolves types (.members underWay union (some kind) names) after outcome →
      Resolves types (.members underWay union shared (name :: names)) known outcome

/-- Declarations are looked at one after the other. The first error ends that. -/
inductive ResolvesEach (types : List TypeDecl) : List TypeDecl → Kinds → Except TypeError Kinds → Prop where
  | done {known : Kinds} : ResolvesEach types [] known (.ok known)
  | failed {type : TypeDecl} {rest : List TypeDecl} {known : Kinds} {error : TypeError} :
      Resolves types (.kindOf [] type.name.text) known (.error error) →
      ResolvesEach types (type :: rest) known (.error error)
  | next {type : TypeDecl} {rest : List TypeDecl} {known after : Kinds} {kind : Kind}
      {outcome : Except TypeError Kinds} : Resolves types (.kindOf [] type.name.text) known (.ok (kind, after)) →
      ResolvesEach types rest after outcome → ResolvesEach types (type :: rest) known outcome

variable {types : List TypeDecl} {name : String} {kind : Kind} {known : Kinds}

/-! ## The search ends -/

/-- What `resolve` does with a definition. -/
def resolveDefinition (inner : Kinds → String → Outcome) (known : Kinds) (name : String) : TypeDefinition → Outcome
  | .subset base => inner known base.text
  | .synonym base => inner known base.text
  | .equivalence base => inner known base.text
  | .order base => inner known base.text
  | .record _ => .ok (.record, known)
  | .union members => resolveMembers inner name none known (members.map Name.text)

theorem resolve_of_definition {underWay : List String} {definition : TypeDefinition} (depth : Nat)
    (unknown : known.lookup name = none) (new : name ∉ underWay) (defined : definition? types name = some definition) :
    resolve types (depth + 1) underWay known name =
      (resolveDefinition (resolve types depth (name :: underWay)) known name definition).remember name := by
  rw [resolve.eq_def]
  simp only [unknown, defined, List.contains_eq_mem, new, decide_false, Bool.false_eq_true, if_false]
  cases definition <;> rfl

theorem resolves_members {underWay : List String} {inner : Kinds → String → Outcome}
    (each : ∀ known name, Resolves types (.kindOf underWay name) known (inner known name)) (union : String) :
    ∀ shared known names, Resolves types (.members underWay union shared names) known
      (resolveMembers inner union shared known names)
  | none, known, [] => .empty
  | some shared, known, [] => .shared
  | shared, known, name :: names => by
      have first := each known name
      rw [resolveMembers]
      generalize inner known name = outcome at first
      match outcome with
      | .error error => exact .failed first
      | .ok (kind, after) =>
          change Resolves types _ known (if shared.all (· == kind) then
            resolveMembers inner union (some kind) after names else .error (.mixedUnion union))
          split
          · next same => exact .agrees first same (resolves_members each union (some kind) after names)
          · next differs => exact .differs first (Bool.eq_false_iff.2 differs)

theorem resolves_definition {underWay : List String} {inner : Kinds → String → Outcome}
    (each : ∀ known name, Resolves types (.kindOf underWay name) known (inner known name)) (known : Kinds)
    (name : String) (definition : TypeDefinition) :
    Resolves types (.definition underWay name definition) known (resolveDefinition inner known name definition) := by
  cases definition with
  | record fields => exact .record
  | union members => exact .union (resolves_members each name none known _)
  | _ => exact .derived rfl (each known _)

/-- Names under way are distinct declared ones, so the bound is not reached. -/
theorem resolves_resolve (depth : Nat) {underWay : List String} (once : underWay.Nodup)
    (declared : underWay ⊆ typeNames types) (deep : types.length ≤ depth + underWay.length) (known : Kinds)
    (name : String) : Resolves types (.kindOf underWay name) known (resolve types depth underWay known name) := by
  cases found : known.lookup name with
  | some kind => simpa [resolve.eq_def, found] using Resolves.known found
  | none =>
      by_cases old : name ∈ underWay
      · simpa [resolve.eq_def, found, old] using Resolves.cyclic found old
      · cases defined : definition? types name with
        | none => simpa [resolve.eq_def, found, old, defined] using Resolves.undeclared found old defined
        | some definition =>
            -- With this name there are still no more names under way than declarations, so some depth is left.
            have onceMore : (name :: underWay).Nodup := List.nodup_cons.2 ⟨old, once⟩
            have inside : name :: underWay ⊆ typeNames types :=
              List.cons_subset.2 ⟨(definition?_eq_some_iff.1 defined).mem_typeNames, declared⟩
            have bounded : underWay.length + 1 ≤ types.length := by
              simpa [typeNames] using (List.subperm_of_subset onceMore inside).length_le
            cases depth with
            | zero => omega
            | succ depth =>
                have deepEnough : types.length ≤ depth + (name :: underWay).length := by
                  rw [List.length_cons]
                  omega
                rw [resolve_of_definition depth found old defined]
                exact .opened found old defined
                  (resolves_definition (resolves_resolve depth onceMore inside deepEnough) known name definition)

theorem resolves_foldlM (rest : List TypeDecl) (known : Kinds) :
    ResolvesEach types rest known (rest.foldlM
      (fun known type => do
        let (_, known) ← resolve types types.length [] known type.name.text
        return known)
      known) := by
  induction rest generalizing known with
  | nil => exact .done
  | cons type rest ih =>
      have first := resolves_resolve types.length List.nodup_nil (List.nil_subset _) (Nat.le_add_right _ _) known
        type.name.text
      rw [List.foldlM_cons]
      generalize resolve types types.length [] known type.name.text = outcome at first
      match outcome with
      | .error error => exact .failed first
      | .ok (kind, after) => exact .next first (ih after)

/-! ## The search has one outcome -/

theorem Resolves.unique {question : Question} {outcome other : Outcome}
    (resolves : Resolves types question known outcome) (also : Resolves types question known other) :
    outcome = other := by
  induction resolves generalizing other with
  | known found => cases also <;> simp_all
  | cyclic unknown old => cases also <;> simp_all
  | undeclared unknown new undefined => cases also <;> simp_all
  | opened unknown new defined _ ih =>
      cases also with
      | opened _ _ alsoDefined alsoResolves =>
          cases defined.symm.trans alsoDefined
          rw [ih alsoResolves]
      | _ => simp_all
  | derived based _ ih =>
      cases also with
      | derived alsoBased alsoResolves =>
          cases based.symm.trans alsoBased
          exact ih alsoResolves
      | _ => cases based
  | record =>
      cases also with
      | derived based => cases based
      | record => rfl
  | union _ ih =>
      cases also with
      | derived based => cases based
      | union alsoResolves => exact ih alsoResolves
  | empty => cases also; rfl
  | shared => cases also; rfl
  | failed _ ih =>
      cases also with
      | failed alsoFirst => exact ih alsoFirst
      | differs alsoFirst => cases ih alsoFirst
      | agrees alsoFirst => cases ih alsoFirst
  | differs _ differs ih =>
      cases also with
      | failed alsoFirst => cases ih alsoFirst
      | differs => rfl
      | agrees alsoFirst same =>
          cases ih alsoFirst
          simp [differs] at same
  | agrees _ same _ first rest =>
      cases also with
      | failed alsoFirst => cases first alsoFirst
      | differs alsoFirst differs =>
          cases first alsoFirst
          simp [same] at differs
      | agrees alsoFirst _ alsoRest =>
          cases first alsoFirst
          exact rest alsoRest

theorem ResolvesEach.unique {rest : List TypeDecl} {outcome other : Except TypeError Kinds}
    (resolves : ResolvesEach types rest known outcome) (also : ResolvesEach types rest known other) :
    outcome = other := by
  induction resolves generalizing other with
  | done => cases also; rfl
  | failed first =>
      cases also with
      | failed alsoFirst => cases first.unique alsoFirst; rfl
      | next alsoFirst => cases first.unique alsoFirst
  | next first _ ih =>
      cases also with
      | failed alsoFirst => cases first.unique alsoFirst
      | next alsoFirst alsoRest =>
          cases first.unique alsoFirst
          exact ih alsoRest

/-! ## What the search finds -/

/-- The kinds known are right, and the primitive ones are known. -/
structure Faithful (types : List TypeDecl) (known : Kinds) : Prop where
  sound : ∀ name kind, known.lookup name = some kind → HasKind types name kind
  primitive : ∀ name kind, primitiveKinds.lookup name = some kind → known.lookup name = some kind

/-- Kinds that were known are still known. -/
def Kinds.Extends (after known : Kinds) : Prop :=
  ∀ name kind, known.lookup name = some kind → after.lookup name = some kind

/-- How a question comes about: each name under way needs its subject, and the members of a union that were looked at
have the kind that the others are compared with. -/
def Question.Arises (types : List TypeDecl) : Question → Prop
  | .kindOf underWay name => ∀ other ∈ underWay, Relation.TransGen (Needs types) other name
  | .definition underWay name defined => primitiveKinds.lookup name = none ∧ LastDeclared types name defined ∧
      ∀ other ∈ underWay, Relation.ReflTransGen (Needs types) other name
  | .members underWay union shared names => primitiveKinds.lookup union = none ∧
      (∃ members seen, LastDeclared types union (.union members) ∧ members.map Name.text = seen ++ names ∧
        (shared = none → seen = []) ∧
        ∀ kind, shared = some kind → seen ≠ [] ∧ ∀ member ∈ seen, HasKind types member kind) ∧
      ∀ other ∈ underWay, Relation.ReflTransGen (Needs types) other union

/-- An outcome is right: the kind is that of the subject, or the error is about something that the subject needs. -/
def Outcome.Right (types : List TypeDecl) (subject : String) (known : Kinds) : Outcome → Prop
  | .ok (kind, after) => HasKind types subject kind ∧ Faithful types after ∧ after.Extends known
  | .error error => Explains types error ∧ Relation.ReflTransGen (Needs types) subject error.name

theorem Kinds.Extends.refl (known : Kinds) : known.Extends known :=
  fun _ _ found => found

theorem Kinds.Extends.trans {last after : Kinds} (later : last.Extends after) (first : after.Extends known) :
    last.Extends known :=
  fun name kind found => later name kind (first name kind found)

/-- What is not known is not primitive. -/
theorem Faithful.own (faithful : Faithful types known) (unknown : known.lookup name = none) :
    primitiveKinds.lookup name = none := by
  cases found : primitiveKinds.lookup name with
  | none => rfl
  | some kind => simp [faithful.primitive name kind found] at unknown

theorem faithful_primitiveKinds (types : List TypeDecl) : Faithful types primitiveKinds where
  sound _ _ found := .primitive found
  primitive _ _ found := found

/-- To remember the right kind of a name keeps the kinds right, and changes none of them. -/
theorem Faithful.remember {after : Kinds} (faithful : Faithful types after) (hasKind : HasKind types name kind) :
    Faithful types ((name, kind) :: after) ∧ Kinds.Extends ((name, kind) :: after) after := by
  have grows : Kinds.Extends ((name, kind) :: after) after := by
    intro other otherKind found
    rw [List.lookup_cons]
    split
    · next same =>
        cases eq_of_beq same
        rw [hasKind.unique (faithful.sound _ _ found)]
    · exact found
  refine ⟨⟨?_, fun other otherKind found => grows _ _ (faithful.primitive _ _ found)⟩, grows⟩
  intro other otherKind found
  rw [List.lookup_cons] at found
  split at found
  · next same =>
      cases eq_of_beq same
      cases found
      exact hasKind
  · exact faithful.sound _ _ found

theorem Outcome.Right.remember {outcome : Outcome} (right : outcome.Right types name known) :
    (outcome.remember name).Right types name known := by
  match outcome with
  | .error error => exact right
  | .ok (kind, after) =>
      obtain ⟨hasKind, faithful, grows⟩ := right
      obtain ⟨stillFaithful, growsMore⟩ := faithful.remember hasKind
      exact ⟨hasKind, stillFaithful, growsMore.trans grows⟩

/-- A member of a union is looked at because the union needs it. -/
theorem Question.Arises.member {underWay names : List String} {union : String} {shared : Option Kind}
    (arises : (Question.members underWay union shared (name :: names)).Arises types) :
    Needs types union name ∧ (Question.kindOf underWay name).Arises types := by
  obtain ⟨own, ⟨members, seen, declared, split, _⟩, leads⟩ := arises
  have needs : Needs types union name := by
    refine ⟨own, .union members, declared, ?_⟩
    rw [TypeDefinition.parts, split]
    simp
  exact ⟨needs, fun other isUnderWay => Relation.TransGen.tail' (leads other isUnderWay) needs⟩

/-- After a member that agrees with those before, the others are compared with its kind. -/
theorem Question.Arises.agrees {underWay names : List String} {union : String} {shared : Option Kind}
    (arises : (Question.members underWay union shared (name :: names)).Arises types)
    (hasKind : HasKind types name kind) (same : shared.all (· == kind) = true) :
    (Question.members underWay union (some kind) names).Arises types := by
  obtain ⟨own, ⟨members, seen, declared, split, unseen, each⟩, leads⟩ := arises
  refine ⟨own, ⟨members, seen ++ [name], declared, by simp [split], by simp, ?_⟩, leads⟩
  rintro _ ⟨rfl⟩
  refine ⟨by simp, ?_⟩
  intro member isSeen
  rcases List.mem_append.1 isSeen with before | isLast
  · cases shared with
    | none => simp [unseen rfl] at before
    | some earlier =>
        cases eq_of_beq same
        exact (each _ rfl).2 member before
  · cases List.mem_singleton.1 isLast
    exact hasKind

/-- A member whose kind differs from that of a member before explains why a union has no kind. -/
theorem Question.Arises.differs {underWay names : List String} {union : String} {shared : Option Kind}
    (arises : (Question.members underWay union shared (name :: names)).Arises types)
    (hasKind : HasKind types name kind) (differs : shared.all (· == kind) = false) :
    Explains types (.mixedUnion union) := by
  obtain ⟨own, ⟨members, seen, declared, split, _, each⟩, _⟩ := arises
  cases shared with
  | none => cases differs
  | some earlier =>
      obtain ⟨nonempty, haveKind⟩ := each earlier rfl
      obtain ⟨first, isSeen⟩ := List.exists_mem_of_ne_nil _ nonempty
      have isMember {part : String} (isPart : part ∈ seen ++ name :: names) :
          ∃ member ∈ members, member.text = part := by
        rwa [← split, List.mem_map] at isPart
      obtain ⟨left, isLeft, rfl⟩ := isMember (List.mem_append_left _ isSeen)
      obtain ⟨right, isRight, rfl⟩ := isMember (List.mem_append_right _ List.mem_cons_self)
      refine .mixed own declared isLeft isRight (haveKind _ isSeen) hasKind ?_
      simpa using differs

/-- Every outcome of a question that arises with right kinds known is right. -/
theorem Resolves.right {question : Question} {outcome : Outcome} (resolves : Resolves types question known outcome)
    (arises : question.Arises types) (faithful : Faithful types known) :
    outcome.Right types question.subject known := by
  induction resolves with
  | known found => exact ⟨faithful.sound _ _ found, faithful, .refl _⟩
  | cyclic unknown old =>
      -- The name is under way, so it needs what is looked at, which is the name itself.
      exact ⟨.cyclic (arises _ old), .refl⟩
  | undeclared unknown new undefined =>
      exact ⟨.undeclared (faithful.own unknown) (definition?_eq_none_iff.1 undefined), .refl⟩
  | opened unknown new defined _ ih =>
      apply Outcome.Right.remember
      refine ih ⟨faithful.own unknown, definition?_eq_some_iff.1 defined, ?_⟩ faithful
      intro other isUnderWay
      rcases List.mem_cons.1 isUnderWay with rfl | before
      · exact .refl
      · exact (arises other before).to_reflTransGen
  | @derived _ _ _ definition base outcome based _ ih =>
      obtain ⟨own, declared, leads⟩ := arises
      have needs : Needs types _ base.text := ⟨own, definition, declared, by simp [TypeDefinition.parts_of_base based]⟩
      have right := ih (fun other isUnderWay => Relation.TransGen.tail' (leads other isUnderWay) needs) faithful
      match outcome with
      | .error error => exact ⟨right.1, .head needs right.2⟩
      | .ok (kind, after) => exact ⟨.derived own declared based right.1, right.2⟩
  | record => exact ⟨.record arises.1 arises.2.1, faithful, .refl _⟩
  | @union _ _ _ members _ _ ih =>
      obtain ⟨own, declared, leads⟩ := arises
      exact ih ⟨own, ⟨members, [], declared, rfl, fun _ => rfl, by simp⟩, leads⟩ faithful
  | empty =>
      obtain ⟨own, ⟨members, seen, declared, split, unseen, _⟩, _⟩ := arises
      rw [unseen rfl, List.append_nil, List.map_eq_nil_iff] at split
      exact ⟨.empty own (split ▸ declared), .refl⟩
  | shared =>
      obtain ⟨own, ⟨members, seen, declared, split, _, each⟩, _⟩ := arises
      rw [List.append_nil] at split
      obtain ⟨nonempty, haveKind⟩ := each _ rfl
      refine ⟨.union own declared (fun none => nonempty (by simp [← split, none])) ?_, faithful, .refl _⟩
      intro member isMember
      exact haveKind _ (split ▸ List.mem_map_of_mem isMember)
  | failed _ ih =>
      obtain ⟨needs, memberArises⟩ := arises.member
      obtain ⟨explains, leads⟩ := ih memberArises faithful
      exact ⟨explains, .head needs leads⟩
  | differs _ differs ih =>
      have right := ih arises.member.2 faithful
      exact ⟨arises.differs right.1 differs, .refl⟩
  | @agrees _ _ _ _ _ _ _ _ outcome _ same _ first rest =>
      obtain ⟨hasKind, stillFaithful, grows⟩ := first arises.member.2 faithful
      have right := rest (arises.agrees hasKind same) stillFaithful
      match outcome with
      | .error error => exact right
      | .ok (kind, last) => exact ⟨right.1, right.2.1, right.2.2.trans grows⟩

/-- A kind that was found is known. -/
theorem Resolves.lookup {underWay : List String} {after : Kinds}
    (resolves : Resolves types (.kindOf underWay name) known (.ok (kind, after))) :
    after.lookup name = some kind := by
  generalize isOk : (.ok (kind, after) : Outcome) = outcome at resolves
  cases resolves with
  | known found =>
      cases isOk
      exact found
  | @opened _ _ _ _ inner =>
      match inner with
      | .error error => cases isOk
      | .ok found =>
          cases isOk
          simp
  | _ => cases isOk

/-- What is true after declarations were looked at one after the other. -/
def EachRight (types rest : List TypeDecl) (known : Kinds) : Except TypeError Kinds → Prop
  | .ok after => Faithful types after ∧ after.Extends known ∧
      ∀ type ∈ rest, ∃ kind, after.lookup type.name.text = some kind
  | .error error => Explains types error ∧
      ∃ type ∈ rest, Relation.ReflTransGen (Needs types) type.name.text error.name

theorem ResolvesEach.right {rest : List TypeDecl} {outcome : Except TypeError Kinds}
    (resolves : ResolvesEach types rest known outcome) (faithful : Faithful types known) :
    EachRight types rest known outcome := by
  have nothingUnderWay (name : String) : (Question.kindOf [] name).Arises types := by simp [Question.Arises]
  induction resolves with
  | done => exact ⟨faithful, .refl _, by simp⟩
  | @failed type _ _ _ first =>
      obtain ⟨explains, leads⟩ := first.right (nothingUnderWay _) faithful
      exact ⟨explains, type, List.mem_cons_self, leads⟩
  | @next type _ _ _ _ outcome first _ ih =>
      obtain ⟨_, stillFaithful, grows⟩ := first.right (nothingUnderWay _) faithful
      have right := ih stillFaithful
      match outcome with
      | .error error =>
          obtain ⟨explains, other, isLater, leads⟩ := right
          exact ⟨explains, other, List.mem_cons_of_mem _ isLater, leads⟩
      | .ok last =>
          obtain ⟨lastFaithful, growsMore, found⟩ := right
          exact ⟨lastFaithful, growsMore.trans grows,
            List.forall_mem_cons.2 ⟨⟨_, growsMore _ _ first.lookup⟩, found⟩⟩

/-! ## Resolution is exact -/

/-- The resolution of types ends and finds the kinds that types have, or a reason why some declared type has none. -/
structure ResolutionExact (types : List TypeDecl) : Prop where
  /-- The search has an outcome, and only the computed one. -/
  ends : ∀ outcome, ResolvesEach types types primitiveKinds outcome ↔ outcome = resolveTypes types
  succeeds_iff : (∃ kinds, resolveTypes types = .ok kinds) ↔ ∀ type ∈ types, ∃ kind, HasKind types type.name.text kind
  kind?_eq_some_iff : ∀ kinds, resolveTypes types = .ok kinds → ∀ name kind,
    kinds.kind? name = some kind ↔ HasKind types name.text kind
  kind?_eq_none_iff : ∀ kinds, resolveTypes types = .ok kinds → ∀ name,
    kinds.kind? name = none ↔ primitiveKinds.lookup name.text = none ∧ name.text ∉ typeNames types
  fails : ∀ error, resolveTypes types = .error error → Explains types error ∧
    ∃ type ∈ types, Relation.ReflTransGen (Needs types) type.name.text error.name
  /-- Neither success nor the kinds depend on the order in which distinct types are declared. -/
  unordered : (typeNames types).Nodup → ∀ others, types.Perm others →
    (resolveTypes types).toOption.map Kinds.kind? = (resolveTypes others).toOption.map Kinds.kind?

theorem resolvesEach_resolveTypes (types : List TypeDecl) :
    ResolvesEach types types primitiveKinds (resolveTypes types) :=
  resolves_foldlM types primitiveKinds

theorem resolveTypes_right (types : List TypeDecl) : EachRight types types primitiveKinds (resolveTypes types) :=
  (resolvesEach_resolveTypes types).right (faithful_primitiveKinds types)

theorem kind?_resolveTypes_iff {kinds : Kinds} (resolved : resolveTypes types = .ok kinds) {name : Name} :
    kinds.kind? name = some kind ↔ HasKind types name.text kind := by
  have right := resolveTypes_right types
  rw [resolved] at right
  obtain ⟨faithful, _, found⟩ := right
  constructor
  · exact faithful.sound _ _
  · intro hasKind
    rcases hasKind.primitive_or_declared with primitive | declared
    · exact faithful.primitive _ _ primitive
    · obtain ⟨type, isType, sameText⟩ := List.mem_map.1 declared
      obtain ⟨other, isOther⟩ := found type isType
      rw [sameText] at isOther
      rw [hasKind.unique (faithful.sound _ _ isOther)]
      exact isOther

theorem resolveTypes_isOk_iff :
    (∃ kinds, resolveTypes types = .ok kinds) ↔ ∀ type ∈ types, ∃ kind, HasKind types type.name.text kind := by
  have right := resolveTypes_right types
  constructor
  · rintro ⟨kinds, resolved⟩ type isType
    rw [resolved] at right
    obtain ⟨faithful, _, found⟩ := right
    obtain ⟨kind, isKind⟩ := found type isType
    exact ⟨kind, faithful.sound _ _ isKind⟩
  · intro haveKinds
    cases resolved : resolveTypes types with
    | ok kinds => exact ⟨kinds, rfl⟩
    | error error =>
        rw [resolved] at right
        -- What a declared type needs would have a kind as well.
        obtain ⟨explains, type, isType, leads⟩ := right
        obtain ⟨kind, hasKind⟩ := haveKinds type isType
        exact absurd (hasKind.of_leads leads) explains.not_hasKind

theorem kind?_resolveTypes_perm {others : List TypeDecl} (once : (typeNames types).Nodup)
    (reordered : types.Perm others) :
    (resolveTypes types).toOption.map Kinds.kind? = (resolveTypes others).toOption.map Kinds.kind? := by
  have sameSuccess : (∃ kinds, resolveTypes types = .ok kinds) ↔ ∃ kinds, resolveTypes others = .ok kinds := by
    simp only [resolveTypes_isOk_iff, hasKind_perm once reordered, reordered.mem_iff]
  cases resolved : resolveTypes types with
  | error error =>
      cases alsoResolved : resolveTypes others with
      | error => rfl
      | ok kinds => simp [resolved, alsoResolved] at sameSuccess
  | ok kinds =>
      obtain ⟨otherKinds, alsoResolved⟩ := sameSuccess.1 ⟨kinds, resolved⟩
      have sameKinds : kinds.kind? = otherKinds.kind? := by
        funext name
        apply Option.ext
        intro kind
        rw [kind?_resolveTypes_iff resolved, kind?_resolveTypes_iff alsoResolved, hasKind_perm once reordered]
      simp [alsoResolved, Except.toOption, sameKinds]

theorem resolution_exact (types : List TypeDecl) : ResolutionExact types where
  ends outcome := by
    constructor
    · exact fun resolves => resolves.unique (resolvesEach_resolveTypes types)
    · rintro rfl
      exact resolvesEach_resolveTypes types
  succeeds_iff := resolveTypes_isOk_iff
  kind?_eq_some_iff _ resolved _ _ := kind?_resolveTypes_iff resolved
  kind?_eq_none_iff kinds resolved name := by
    constructor
    · intro none
      have noKind (kind : Kind) : ¬HasKind types name.text kind := by
        rw [← kind?_resolveTypes_iff resolved, none]
        exact (Option.some_ne_none kind).symm
      refine ⟨Option.eq_none_iff_forall_ne_some.2 fun kind found => noKind kind (.primitive found), ?_⟩
      intro declared
      obtain ⟨type, isType, sameText⟩ := List.mem_map.1 declared
      obtain ⟨kind, hasKind⟩ := resolveTypes_isOk_iff.1 ⟨kinds, resolved⟩ type isType
      exact noKind kind (sameText ▸ hasKind)
    · rintro ⟨own, undeclared⟩
      apply Option.eq_none_iff_forall_ne_some.2
      intro kind found
      rcases ((kind?_resolveTypes_iff resolved).1 found).primitive_or_declared with primitive | declared
      · simp [own] at primitive
      · exact undeclared declared
  fails error failed := by
    have right := resolveTypes_right types
    rw [failed] at right
    exact right
  unordered once _ reordered := kind?_resolveTypes_perm once reordered

/-- Members that are declared behind the union, one of them by way of another. -/
example :
    (resolveTypes [⟨⟨["Id"]⟩, .union [⟨["Age"]⟩, ⟨["Year"]⟩]⟩, ⟨⟨["Age"]⟩, .subset ⟨["Year"]⟩⟩,
      ⟨⟨["Year"]⟩, .synonym ⟨["unsigned"]⟩⟩]).toOption.bind (·.kind? ⟨["Id"]⟩) = some .unsigned := by
  decide

end DatalogRam.Analysis
