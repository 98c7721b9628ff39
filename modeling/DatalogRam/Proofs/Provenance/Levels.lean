import DatalogRam.Proofs.Machine.Words
import DatalogRam.Proofs.Provenance.Answers

/-!
# Levels of derivations

The level of a derivation is one more than the highest level in its body. Levels are words, so this is said of the
numbers that they stand for, as long as no level is the last word.
-/

namespace DatalogRam.Lowering

open Machine Ram

/-- The level of a row, in its last column. -/
def rowLevel (row : Row) : Int64 :=
  row.getLast?.getD 0

/-- A level just above others: one more than the highest of them, and zero if there are none. -/
structure JustAbove (level : Int64) (levels : List Int64) : Prop where
  least : levels = [] → level = 0
  above : ∀ lower ∈ levels, lower < level
  next : levels ≠ [] → ∃ lower ∈ levels, level.toInt = lower.toInt + 1

/-- The next word stands for the next number, unless the word is the last one. -/
theorem toInt_succ {level : Int64} (notLast : level ≠ Int64.maxValue) : (level + 1).toInt = level.toInt + 1 := by
  have bounds := Int64.toInt_lt level
  have lower := Int64.le_toInt level
  have different : level.toInt ≠ 2 ^ 63 - 1 := by
    intro same
    apply notLast
    rw [← Int64.toInt_inj, same]
    rfl
  rw [Int64.toInt_add]
  have one : (1 : Int64).toInt = 1 := rfl
  rw [one, Int.bmod_eq_of_le] <;> omega

variable {clause : Clause} {rows : List Row} {atoms : List Atom}

/-- The level of a derivation is just above those of its rows. -/
theorem justAbove_levelOf (low : ∀ level ∈ bodyLevelsOf atoms rows, level ≠ Int64.maxValue) :
    JustAbove (levelOf atoms rows) (bodyLevelsOf atoms rows) := by
  rw [levelOf]
  cases levels : bodyLevelsOf atoms rows with
  | nil => exact ⟨fun _ => rfl, fun lower member => absurd member List.not_mem_nil, fun some => absurd rfl some⟩
  | cons first rest =>
      obtain ⟨member, highest⟩ := foldl_greater first rest
      have next := toInt_succ (low _ (levels ▸ member))
      refine ⟨fun none => by simp at none, fun lower inLevels => ?_, fun _ => ⟨_, member, next⟩⟩
      have below := Int64.le_iff_toInt_le.1 (highest lower inLevels)
      rw [foldFirst, Int64.lt_iff_toInt_lt, next]
      omega

/-- Where rows have their atoms' columns and two more, the levels of a body are those of its rows. -/
theorem bodyLevelsOf_eq (length : rows.length = atoms.length)
    (long : ∀ (position : Nat) (atom : Atom) (row : Row), atoms[position]? = some atom →
      rows[position]? = some row → row.length = atom.arity + 2) :
    bodyLevelsOf atoms rows = rows.map rowLevel := by
  refine List.ext_getElem (by simp [bodyLevelsOf, length]) fun position inLevels inRows => ?_
  rw [List.length_map] at inRows
  have inAtoms : position < atoms.length := length ▸ inRows
  have isRow := List.getElem?_eq_getElem inRows
  have columns := long position _ _ (List.getElem?_eq_getElem inAtoms) isRow
  simp only [bodyLevelsOf, List.getElem_map, List.getElem_zipIdx, Nat.zero_add]
  rw [isRow, Option.bind_some, rowLevel, List.getLast?_eq_getElem?, columns, Nat.add_succ_sub_one]

end DatalogRam.Lowering
