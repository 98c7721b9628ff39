import DatalogRam.Analysis.Kind
import Mathlib.Data.List.Basic
import Mathlib.Logic.Relation

/-!
# What the kind of a type is

`HasKind` says by rules which kind a type has, without an order in which declarations are looked at and without kinds
that are remembered. A type that needs itself has no kind under these rules, and no type has two. `Explains` says what
the errors of a resolution are about: each names a type that has no kind, and gives the reason.
-/

namespace DatalogRam

/-- What a subset, a synonym, an equivalence or an order is based on. -/
def TypeDefinition.base? : TypeDefinition → Option Name
  | .subset base => some base
  | .synonym base => some base
  | .equivalence base => some base
  | .order base => some base
  | .union _ => none
  | .record _ => none

/-- The types that decide the kind of a defined type. -/
def TypeDefinition.parts : TypeDefinition → List String
  | .subset base => [base.text]
  | .synonym base => [base.text]
  | .equivalence base => [base.text]
  | .order base => [base.text]
  | .union members => members.map Name.text
  | .record _ => []

theorem TypeDefinition.parts_of_base {definition : TypeDefinition} {base : Name}
    (based : definition.base? = some base) : definition.parts = [base.text] := by
  cases definition <;> cases based <;> rfl

namespace Analysis

/-- The names of declared types, by their texts. -/
def typeNames (types : List TypeDecl) : List String :=
  types.map fun type => type.name.text

/-- What the last declaration of a name says. -/
def LastDeclared (types : List TypeDecl) (name : String) (definition : TypeDefinition) : Prop :=
  ∃ before type after, types = before ++ type :: after ∧ type.name.text = name ∧ type.definition = definition ∧
    name ∉ typeNames after

/-- Which kind a type has. Declarations of primitive types count for nothing. -/
inductive HasKind (types : List TypeDecl) : String → Kind → Prop where
  | primitive {name : String} {kind : Kind} : primitiveKinds.lookup name = some kind → HasKind types name kind
  | derived {name : String} {definition : TypeDefinition} {base : Name} {kind : Kind} :
      primitiveKinds.lookup name = none → LastDeclared types name definition → definition.base? = some base →
      HasKind types base.text kind → HasKind types name kind
  | record {name : String} {fields : List Attribute} :
      primitiveKinds.lookup name = none → LastDeclared types name (.record fields) → HasKind types name .record
  | union {name : String} {members : List Name} {kind : Kind} :
      primitiveKinds.lookup name = none → LastDeclared types name (.union members) → members ≠ [] →
      (∀ member ∈ members, HasKind types member.text kind) → HasKind types name kind

/-- The kind of a type depends on the kind of another. -/
def Needs (types : List TypeDecl) (name other : String) : Prop :=
  primitiveKinds.lookup name = none ∧ ∃ definition, LastDeclared types name definition ∧ other ∈ definition.parts

/-- The type that an error is about. -/
def TypeError.name : TypeError → String
  | .undeclared name => name
  | .cyclic name => name
  | .mixedUnion name => name

/-- What an error says is so. -/
inductive Explains (types : List TypeDecl) : TypeError → Prop where
  | undeclared {name : String} : primitiveKinds.lookup name = none → name ∉ typeNames types →
      Explains types (.undeclared name)
  | cyclic {name : String} : Relation.TransGen (Needs types) name name → Explains types (.cyclic name)
  | empty {name : String} : primitiveKinds.lookup name = none → LastDeclared types name (.union []) →
      Explains types (.mixedUnion name)
  | mixed {name : String} {members : List Name} {left right : Name} {leftKind rightKind : Kind} :
      primitiveKinds.lookup name = none → LastDeclared types name (.union members) → left ∈ members →
      right ∈ members → HasKind types left.text leftKind → HasKind types right.text rightKind →
      leftKind ≠ rightKind → Explains types (.mixedUnion name)

variable {types : List TypeDecl} {name : String} {definition : TypeDefinition} {kind : Kind}

/-! ## Last declarations -/

theorem definition?_eq_some_iff : definition? types name = some definition ↔ LastDeclared types name definition := by
  have behind (after : List TypeDecl) :
      (∀ type ∈ after.reverse, (!(type.name.text == name)) = true) ↔ name ∉ typeNames after := by
    simp [typeNames]
  rw [definition?, List.getLast?_eq_head?_reverse, ← List.filter_reverse, List.head?_filter, Option.map_eq_some_iff]
  constructor
  · rintro ⟨type, found, rfl⟩
    obtain ⟨named, after, before, split, none⟩ := List.find?_eq_some_iff_append.1 found
    refine ⟨before.reverse, type, after.reverse, ?_, eq_of_beq named, rfl, ?_⟩
    · rw [← List.reverse_reverse types, split]
      simp
    · rw [← behind, List.reverse_reverse]
      exact none
  · rintro ⟨before, type, after, rfl, named, rfl, none⟩
    refine ⟨type, List.find?_eq_some_iff_append.2 ⟨beq_iff_eq.2 named, after.reverse, before.reverse, ?_, ?_⟩, rfl⟩
    · simp
    · exact (behind after).2 none

theorem definition?_eq_none_iff : definition? types name = none ↔ name ∉ typeNames types := by
  simp [definition?, typeNames]

theorem LastDeclared.unique {other : TypeDefinition} (declared : LastDeclared types name definition)
    (also : LastDeclared types name other) : definition = other :=
  Option.some.inj ((definition?_eq_some_iff.2 declared).symm.trans (definition?_eq_some_iff.2 also))

theorem LastDeclared.mem_typeNames (declared : LastDeclared types name definition) : name ∈ typeNames types := by
  obtain ⟨before, type, after, rfl, rfl, _, _⟩ := declared
  simp [typeNames]

/-- If no two declarations have one name, each is the last of its name. -/
theorem lastDeclared_iff_mem (once : (typeNames types).Nodup) :
    LastDeclared types name definition ↔
      ∃ type ∈ types, type.name.text = name ∧ type.definition = definition := by
  constructor
  · rintro ⟨before, type, after, rfl, named, defined, _⟩
    exact ⟨type, by simp, named, defined⟩
  · rintro ⟨type, member, rfl, defined⟩
    obtain ⟨before, after, rfl⟩ := List.append_of_mem member
    refine ⟨before, type, after, rfl, rfl, defined, ?_⟩
    rw [typeNames, List.map_append, List.map_cons] at once
    exact (List.nodup_cons.1 (List.nodup_append.1 once).2.1).1

/-! ## Kinds -/

/-- The kind of a defined type, from the kinds of its parts. -/
theorem hasKind_iff (own : primitiveKinds.lookup name = none) (declared : LastDeclared types name definition) :
    HasKind types name kind ↔ (∃ fields, definition = .record fields ∧ kind = .record) ∨
      definition.parts ≠ [] ∧ ∀ part ∈ definition.parts, HasKind types part kind := by
  constructor
  · intro hasKind
    cases hasKind with
    | primitive found => simp [own] at found
    | derived _ also based baseKind =>
        cases also.unique declared
        refine .inr ?_
        simpa [TypeDefinition.parts_of_base based] using baseKind
    | record _ also => exact .inl ⟨_, declared.unique also, rfl⟩
    | union _ also nonempty each =>
        cases also.unique declared
        refine .inr ?_
        simpa [TypeDefinition.parts] using ⟨nonempty, each⟩
  · rintro (⟨fields, rfl, rfl⟩ | ⟨nonempty, each⟩)
    · exact .record own declared
    · cases definition with
      | record fields => exact absurd rfl nonempty
      | union members =>
          refine .union own declared (fun empty => nonempty (by simp [empty, TypeDefinition.parts])) ?_
          intro member isMember
          exact each _ (List.mem_map_of_mem isMember)
      | _ => exact .derived own declared rfl (each _ List.mem_cons_self)

theorem HasKind.unique {other : Kind} (hasKind : HasKind types name kind) (also : HasKind types name other) :
    kind = other := by
  induction hasKind generalizing other with
  | primitive found =>
      cases also with
      | primitive alsoFound => exact Option.some.inj (found.symm.trans alsoFound)
      | _ own => simp [found] at own
  | derived own declared based _ ih =>
      rcases (hasKind_iff own declared).1 also with ⟨fields, rfl, _⟩ | ⟨_, each⟩
      · cases based
      · rw [TypeDefinition.parts_of_base based] at each
        exact ih (each _ List.mem_cons_self)
  | record own declared =>
      rcases (hasKind_iff own declared).1 also with ⟨_, _, isRecord⟩ | ⟨nonempty, _⟩
      · exact isRecord.symm
      · exact absurd rfl nonempty
  | union own declared nonempty _ ih =>
      rcases (hasKind_iff own declared).1 also with ⟨_, isRecord, _⟩ | ⟨_, each⟩
      · cases isRecord
      · obtain ⟨member, isMember⟩ := List.exists_mem_of_ne_nil _ nonempty
        exact ih member isMember (each _ (List.mem_map_of_mem isMember))

theorem HasKind.primitive_or_declared (hasKind : HasKind types name kind) :
    primitiveKinds.lookup name = some kind ∨ name ∈ typeNames types := by
  cases hasKind with
  | primitive found => exact .inl found
  | derived _ declared => exact .inr declared.mem_typeNames
  | record _ declared => exact .inr declared.mem_typeNames
  | union _ declared => exact .inr declared.mem_typeNames

/-- What a type with a kind needs has a kind. -/
theorem HasKind.of_needs {other : String} (hasKind : HasKind types name kind) (needs : Needs types name other) :
    HasKind types other kind := by
  obtain ⟨own, definition, declared, isPart⟩ := needs
  rcases (hasKind_iff own declared).1 hasKind with ⟨_, rfl, _⟩ | ⟨_, each⟩
  · cases isPart
  · exact each other isPart

theorem HasKind.of_leads {other : String} (hasKind : HasKind types name kind)
    (leads : Relation.ReflTransGen (Needs types) name other) : HasKind types other kind := by
  induction leads with
  | refl => exact hasKind
  | tail _ needs ih => exact ih.of_needs needs

/-- A cycle leads on from a part of its first type, so it can as well begin there. -/
theorem exists_part_of_cycle (declared : LastDeclared types name definition)
    (cycle : Relation.TransGen (Needs types) name name) :
    ∃ part ∈ definition.parts, Relation.TransGen (Needs types) part part := by
  obtain ⟨other, needs, leads⟩ := Relation.TransGen.head'_iff.1 cycle
  have ⟨_, _, alsoDeclared, isPart⟩ := needs
  cases declared.unique alsoDeclared
  exact ⟨other, isPart, Relation.TransGen.tail' leads needs⟩

/-- A type that needs itself has no kind, since the rules build a kind from those of what it needs. -/
theorem HasKind.not_cyclic (hasKind : HasKind types name kind) : ¬Relation.TransGen (Needs types) name name := by
  intro cycle
  induction hasKind with
  | primitive found =>
      obtain ⟨other, ⟨own, _⟩, _⟩ := Relation.TransGen.head'_iff.1 cycle
      simp [found] at own
  | derived _ declared based _ ih =>
      obtain ⟨part, isPart, around⟩ := exists_part_of_cycle declared cycle
      rw [TypeDefinition.parts_of_base based, List.mem_singleton] at isPart
      exact ih (isPart ▸ around)
  | record _ declared =>
      obtain ⟨part, isPart, _⟩ := exists_part_of_cycle declared cycle
      cases isPart
  | union _ declared _ _ ih =>
      obtain ⟨part, isPart, around⟩ := exists_part_of_cycle declared cycle
      obtain ⟨member, isMember, rfl⟩ := List.mem_map.1 isPart
      exact ih member isMember around

/-- The kinds depend on the last declarations only. -/
theorem HasKind.congr {others : List TypeDecl}
    (same : ∀ name definition, LastDeclared types name definition → LastDeclared others name definition)
    (hasKind : HasKind types name kind) : HasKind others name kind := by
  induction hasKind with
  | primitive found => exact .primitive found
  | derived own declared based _ ih => exact .derived own (same _ _ declared) based ih
  | record own declared => exact .record own (same _ _ declared)
  | union own declared nonempty _ ih => exact .union own (same _ _ declared) nonempty ih

/-- Distinct types have the same kinds in every order of their declarations. -/
theorem hasKind_perm {others : List TypeDecl} (once : (typeNames types).Nodup) (reordered : types.Perm others) :
    HasKind types name kind ↔ HasKind others name kind := by
  have alsoOnce : (typeNames others).Nodup := (reordered.map _).nodup_iff.1 once
  have same (name : String) (definition : TypeDefinition) :
      LastDeclared types name definition ↔ LastDeclared others name definition := by
    simp only [lastDeclared_iff_mem once, lastDeclared_iff_mem alsoOnce, reordered.mem_iff]
  exact ⟨HasKind.congr fun name definition => (same name definition).1,
    HasKind.congr fun name definition => (same name definition).2⟩

/-- A type that an error is about has no kind. -/
theorem Explains.not_hasKind {error : TypeError} (explains : Explains types error) :
    ¬HasKind types error.name kind := by
  intro hasKind
  cases explains with
  | undeclared own unknown =>
      rcases hasKind.primitive_or_declared with found | declared
      · simp [TypeError.name, own] at found
      · exact unknown declared
  | cyclic cycle => exact hasKind.not_cyclic cycle
  | empty own declared =>
      rcases (hasKind_iff own declared).1 hasKind with ⟨_, isRecord, _⟩ | ⟨nonempty, _⟩
      · cases isRecord
      · exact nonempty rfl
  | mixed own declared isLeft isRight leftKind rightKind differ =>
      have needs {member : Name} (isMember : member ∈ _) : Needs types _ member.text :=
        ⟨own, _, declared, List.mem_map_of_mem isMember⟩
      have left := (hasKind.of_needs (needs isLeft)).unique leftKind
      have right := (hasKind.of_needs (needs isRight)).unique rightKind
      exact differ (left.symm.trans right)

end Analysis

end DatalogRam
