/-!
# Sets of rows

A row is a list of words. Rows are ordered by their first difference, and a row comes before its extensions.
`Rows` keeps a finite set of rows as an ascending list, so a set has one representation only.
-/

namespace DatalogRam.Machine

abbrev Row := List Int64

namespace Row

/-- Whether a row has the length of a pattern and the values that the pattern asks for. -/
def fits : List (Option Int64) → Row → Bool
  | [], [] => true
  | wanted :: pattern, value :: row => wanted.all (· == value) && fits pattern row
  | _, _ => false

/-- Insert a row at its place in an ascending list, unless it is there. -/
def insertInto (row : Row) : List Row → List Row
  | [] => [row]
  | first :: rest =>
      if row < first then row :: first :: rest
      else if row = first then first :: rest
      else first :: insertInto row rest

theorem mem_insertInto (row other : Row) (rows : List Row) :
    other ∈ insertInto row rows ↔ other = row ∨ other ∈ rows := by
  fun_induction insertInto row rows with
  | case1 => simp
  | case2 => simp
  | case3 => simp
  | case4 first rest _ _ ih => simp [ih]; grind

theorem sorted_insertInto (row : Row) (rows : List Row) (sorted : rows.Pairwise (· < ·)) :
    (insertInto row rows).Pairwise (· < ·) := by
  fun_induction insertInto row rows with
  | case1 => simp
  | case2 first rest before =>
      refine List.pairwise_cons.2 ⟨fun other member => ?_, sorted⟩
      rcases List.mem_cons.1 member with rfl | member
      · exact before
      · exact List.lt_trans before ((List.pairwise_cons.1 sorted).1 other member)
  | case3 => exact sorted
  | case4 first rest notBefore different ih =>
      have sortedRest := List.pairwise_cons.1 sorted
      refine List.pairwise_cons.2 ⟨fun other member => ?_, ih sortedRest.2⟩
      rcases (mem_insertInto row other rest).1 member with rfl | member
      · refine Decidable.byContradiction fun notAfter => different ?_
        exact List.le_antisymm (List.not_lt.1 notAfter) (List.not_lt.1 notBefore)
      · exact sortedRest.1 other member

end Row

/-- A finite set of rows. -/
structure Rows where
  toList : List Row
  sorted : toList.Pairwise (· < ·)
  deriving DecidableEq

namespace Rows

def empty : Rows where
  toList := []
  sorted := .nil

instance : Inhabited Rows := ⟨empty⟩

instance : Membership Row Rows where
  mem rows row := row ∈ rows.toList

theorem mem_def {row : Row} {rows : Rows} : row ∈ rows ↔ row ∈ rows.toList :=
  Iff.rfl

def contains (rows : Rows) (row : Row) : Bool :=
  rows.toList.contains row

def insert (rows : Rows) (row : Row) : Rows where
  toList := row.insertInto rows.toList
  sorted := row.sorted_insertInto rows.toList rows.sorted

/-- The rows of either set. -/
def union (rows others : Rows) : Rows :=
  others.toList.foldl insert rows

def size (rows : Rows) : Nat :=
  rows.toList.length

def isEmpty (rows : Rows) : Bool :=
  rows.toList.isEmpty

/-- Whether some row fits a pattern. -/
def anyFits (rows : Rows) (pattern : List (Option Int64)) : Bool :=
  rows.toList.any (Row.fits pattern)

@[simp] theorem not_mem_empty (row : Row) : row ∉ empty := by
  simp [mem_def, empty]

@[simp] theorem mem_insert {row other : Row} {rows : Rows} :
    other ∈ rows.insert row ↔ other = row ∨ other ∈ rows :=
  Row.mem_insertInto row other rows.toList

@[simp] theorem contains_iff {row : Row} {rows : Rows} : rows.contains row = true ↔ row ∈ rows := by
  simp [contains, mem_def]

@[simp] theorem mem_union {row : Row} {rows others : Rows} :
    row ∈ rows.union others ↔ row ∈ rows ∨ row ∈ others := by
  have general (list : List Row) (rows : Rows) :
      row ∈ list.foldl insert rows ↔ row ∈ rows ∨ row ∈ list := by
    induction list generalizing rows with
    | nil => simp
    | cons first rest ih => simp [ih]; grind
  exact general others.toList rows

end Rows

end DatalogRam.Machine
