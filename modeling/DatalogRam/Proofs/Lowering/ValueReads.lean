import DatalogRam.Proofs.Lowering.Definite
import DatalogRam.Proofs.Lowering.Optional
import DatalogRam.Proofs.Lowering.QueryCode
import DatalogRam.Proofs.Ram.Leaves

/-!
# What the code of values reads

The code of an argument reads columns where variables and aggregates have their sites. Within the row of an atom these
are columns for the atom's arguments. The code of a definite argument has no wildcard.
-/

namespace DatalogRam.Lowering

open Ram

/-! ## Sites -/

/-- A site in the row of an atom is a column for one of the atom's arguments. -/
def Site.Fits (atoms : List Atom) (site : Site) : Prop :=
  ∀ atom, atoms[site.tuple]? = some atom → site.column < atom.arity

structure Sites.Fit (atoms : List Atom) (sites : Sites) : Prop where
  names : ∀ name site, sites.definition? name = some site → site.Fits atoms
  aggregates : ∀ aggregate site, sites.aggregate? aggregate = some site → site.Fits atoms

variable {ordinal : String → Int64} {plan : Plan} {clause : Clause} {atoms : List Atom} {sites : Sites}

theorem Site.fits_of_le {site : Site} (behind : atoms.length ≤ site.tuple) : site.Fits atoms := by
  intro atom atTuple
  rw [List.getElem?_eq_none behind] at atTuple
  cases atTuple

theorem Sites.fit_nil (sites : Sites) : sites.Fit [] :=
  ⟨fun _ _ _ => Site.fits_of_le (Nat.zero_le _), fun _ _ _ => Site.fits_of_le (Nat.zero_le _)⟩

theorem Sites.fit_empty (atoms : List Atom) : Sites.empty.Fit atoms :=
  ⟨fun _ _ found => absurd found.symm (Option.some_ne_none _),
    fun _ _ found => absurd found.symm (Option.some_ne_none _)⟩

/-- A variable of a clause is read where it is an argument of an atom, and the rest behind the rows of the atoms. -/
theorem fit_clauseFrame (clause : Clause) : (clauseFrame clause).sites.Fit clause.positiveAtoms := by
  have behind {aggregate : Aggregate} {site : Site}
      (found : (aggregateSitesOf clause).aggregate? aggregate = some site) : site.Fits clause.positiveAtoms := by
    obtain ⟨position, _, rfl⟩ := aggregate?_aggregateSitesOf found
    exact Site.fits_of_le (Nat.le_add_right _ _)
  constructor
  · intro name site found
    rcases definition?_clauseFrame found with inAtoms | ⟨_, _, _, aggregate, _, isSite⟩
    · obtain ⟨atom, atTuple, atColumn⟩ := argument_of_definition inAtoms
      intro other isOther
      rw [atTuple] at isOther
      cases isOther
      exact (List.getElem?_eq_some_iff.1 atColumn).1
    · exact behind isSite
  · intro aggregate site found
    rw [Sites.aggregate?, aggregates_clauseFrame] at found
    exact behind found

theorem Sites.Fit.of_extended {tuple : Nat} {inner : Sites} (fit : sites.Fit atoms)
    (extended : Extended sites tuple inner) (behind : atoms.length ≤ tuple) : inner.Fit atoms where
  names name site found := by
    rcases extended.definitions name site found with outside | rfl
    · exact fit.names name site outside
    · exact Site.fits_of_le behind
  aggregates aggregate site found := by
    rw [Sites.aggregate?, extended.aggregates] at found
    exact fit.aggregates aggregate site found

/-! ## Values -/

/-- A leaf in the code of an argument is no column that the rows of atoms lack, and no wildcard if the argument is
definite. -/
structure LeafFits (atoms : List Atom) (definite : Bool) (leaf : Expr) : Prop where
  column : ∀ tuple column, leaf = .element tuple column → Site.Fits atoms ⟨tuple, column⟩
  defined : definite = true → leaf.isUndefined = false

theorem LeafFits.site {site : Site} (fits : site.Fits atoms) (definite : Bool) :
    LeafFits atoms definite (siteCode site) where
  column _ _ same := by
    cases same
    exact fits
  defined _ := rfl

theorem LeafFits.weaken {definite less : Bool} {leaf : Expr} (fits : LeafFits atoms definite leaf)
    (implies : less = true → definite = true) : LeafFits atoms less leaf :=
  ⟨fits.column, fun isLess => fits.defined (implies isLess)⟩

mutual

theorem leaf_of_valueCode (fit : sites.Fit atoms) : ∀ (arg : Argument) {value : Expr},
    valueCode ordinal sites arg = some value → ∀ leaf ∈ value.leaves, LeafFits atoms arg.isDefinite leaf
  | .var name, _, code => by
      obtain ⟨site, isSite, rfl⟩ := Option.map_eq_some_iff.1 code
      exact List.forall_mem_singleton.2 (.site (fit.names name site isSite) _)
  | .aggregate function target body, _, code => by
      obtain ⟨site, isSite, rfl⟩ := Option.map_eq_some_iff.1 code
      exact List.forall_mem_singleton.2 (.site (fit.aggregates _ site isSite) _)
  | .operator _ args, _, code | .external _ args, _, code | .record args, _, code => by
      obtain ⟨values, areValues, rfl⟩ := Option.map_eq_some_iff.1 code
      exact leaf_of_valueCodes fit args areValues
  | .constant value, _, code => by
      cases code
      cases value <;> exact List.forall_mem_singleton.2 ⟨fun _ _ same => (nomatch same), fun _ => rfl⟩
  | .counter, _, code => by
      cases code
      exact List.forall_mem_singleton.2 ⟨fun _ _ same => (nomatch same), fun _ => rfl⟩
  | .unnamed, _, code => by
      cases code
      exact List.forall_mem_singleton.2 ⟨fun _ _ same => (nomatch same), fun definite => (nomatch definite)⟩

theorem leaf_of_valueCodes (fit : sites.Fit atoms) : ∀ (args : List Argument) {values : List Expr},
    valueCodes ordinal sites args = some values →
      ∀ leaf ∈ Expr.leavesOfAll values, LeafFits atoms (Argument.areDefinite args) leaf
  | [], _, code => by
      cases code
      exact fun _ member => absurd member List.not_mem_nil
  | arg :: args, _, code => by
      obtain ⟨first, others, isFirst, areOthers, rfl⟩ := valueCodes_cons_eq_some code
      intro leaf member
      rw [Argument.areDefinite]
      rcases List.mem_append.1 member with inFirst | inOthers
      · exact (leaf_of_valueCode fit arg isFirst leaf inFirst).weaken fun both => (Bool.and_eq_true_iff.1 both).1
      · exact (leaf_of_valueCodes fit args areOthers leaf inOthers).weaken fun both => (Bool.and_eq_true_iff.1 both).2

end

theorem exists_of_valueCodes {args : List Argument} {values : List Expr}
    (codes : valueCodes ordinal sites args = some values) {value : Expr} (member : value ∈ values) :
    ∃ arg ∈ args, valueCode ordinal sites arg = some value :=
  exists_of_forall₂ (forall₂_of_valueCodes codes) member

/-- An expression reads only columns that the rows of atoms have, with their bookkeeping. -/
def ReadsColumns (atoms : List Atom) (auxiliary : Nat) (expr : Expr) : Prop :=
  ∀ tuple column, .element tuple column ∈ expr.leaves → ∀ atom, atoms[tuple]? = some atom →
    column < atom.arity + auxiliary

theorem ReadsColumns.element {tuple column auxiliary : Nat}
    (fits : ∀ atom, atoms[tuple]? = some atom → column < atom.arity + auxiliary) :
    ReadsColumns atoms auxiliary (.element tuple column) := by
  intro other more member
  cases List.mem_singleton.1 member
  exact fits

theorem reads_of_no_elements {auxiliary : Nat} {expr : Expr} (none : ∀ tuple column, .element tuple column ∉ expr.leaves) :
    ReadsColumns atoms auxiliary expr :=
  fun tuple column member => absurd member (none tuple column)

theorem reads_of_valueCode (fit : sites.Fit atoms) (auxiliary : Nat) {arg : Argument} {value : Expr}
    (code : valueCode ordinal sites arg = some value) : ReadsColumns atoms auxiliary value :=
  fun tuple column member atom atTuple =>
    Nat.lt_of_lt_of_le ((leaf_of_valueCode fit arg code _ member).column tuple column rfl atom atTuple)
      (Nat.le_add_right _ _)

theorem isDefined_of_valueCode {arg : Argument} {value : Expr} (code : valueCode ordinal sites arg = some value)
    (definite : arg.isDefinite = true) : value.IsDefined :=
  fun leaf member => (leaf_of_valueCode sites.fit_nil arg code leaf member).defined definite

/-- A value that an existence check may ask for. -/
def Asked (value : Expr) : Prop :=
  value.isUndefined = true ∨ value.IsDefined

/-- Each argument of an atom of a definite clause is a wildcard or has a value. -/
theorem asked_of_valueCode {arg : Argument} {value : Expr} (code : valueCode ordinal sites arg = some value)
    (asked : arg = .unnamed ∨ arg.isDefinite = true) : Asked value := by
  rcases asked with rfl | definite
  · cases code
    exact .inl rfl
  · exact .inr (isDefined_of_valueCode code definite)

end DatalogRam.Lowering
