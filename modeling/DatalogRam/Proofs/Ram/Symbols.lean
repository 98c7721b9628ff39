import DatalogRam.Ram.Symbols
import Mathlib.Algebra.Group.Nat.Defs
import Mathlib.Data.List.Infix

/-!
# Ordinals that never change

A table of symbols only grows, so the ordinal of a text in it is its ordinal in every later one. A table that texts
were interned in holds the different ones in the order of their first calls.
-/

namespace DatalogRam.Ram.Symbols

variable {symbols later : Symbols}

/-- Every text has the same position in a later table. -/
def Extends (later symbols : Symbols) : Prop :=
  ∀ text index, symbols.lookup? text = some index → later.lookup? text = some index

/-- An assignment of words to texts gives each text of the table its ordinal. -/
def Agrees (symbols : Symbols) (ordinal : String → Int64) : Prop :=
  ∀ text index, symbols.lookup? text = some index → ordinal text = Int64.ofNat index

/-- The ordinals of a table. A text that is not in the table has the ordinal zero. -/
def ordinal (symbols : Symbols) (text : String) : Int64 :=
  Int64.ofNat ((symbols.lookup? text).getD 0)

theorem Extends.refl (symbols : Symbols) : symbols.Extends symbols :=
  fun _ _ found => found

theorem Extends.trans {last : Symbols} (second : last.Extends later) (first : later.Extends symbols) :
    last.Extends symbols :=
  fun text index found => second text index (first text index found)

theorem Agrees.of_extends {ordinal : String → Int64} (agrees : later.Agrees ordinal)
    (extends' : later.Extends symbols) : symbols.Agrees ordinal :=
  fun text index found => agrees text index (extends' text index found)

theorem agrees_ordinal (symbols : Symbols) : symbols.Agrees symbols.ordinal := by
  intro text index found
  rw [ordinal, found, Option.getD_some]

theorem lookup?_eq (symbols : Symbols) (text : String) :
    symbols.lookup? text = symbols.toList.findIdx? (fun entry => entry == text) := by
  have asList := List.idxOf?_toArray text symbols.entries.toList
  rw [Array.toArray_toList] at asList
  exact asList

theorem lookup?_add {text : String} (fresh : text ∉ symbols.entries.toList) (other : String) :
    (symbols.add text fresh).lookup? other =
      if other = text then some symbols.size else symbols.lookup? other := by
  rw [lookup?_eq, lookup?_eq, toList, add, Array.toList_push, List.findIdx?_append]
  by_cases same : other = text
  · subst same
    have absent : symbols.entries.toList.findIdx? (fun entry => entry == other) = none := by
      rw [List.findIdx?_eq_none_iff]
      intro entry member
      have different : entry ≠ other := fun same => fresh (same ▸ member)
      simpa using different
    simp [absent, size]
  · simp [same, Ne.symm same, toList]

/-- Interning a text changes no position. -/
theorem encode_extends (symbols : Symbols) (text : String) : (symbols.encode text).2.Extends symbols := by
  intro other index found
  rw [encode]
  split
  · exact found
  · next missing =>
      have different : other ≠ text := by
        rintro rfl
        rw [missing] at found
        cases found
      rw [lookup?_add, if_neg different, found]

/-- The ordinal of an interned text is its position in the table. -/
theorem agrees_encode {ordinal : String → Int64} {text : String}
    (agrees : (symbols.encode text).2.Agrees ordinal) : (symbols.encode text).1 = ordinal text := by
  rw [encode] at agrees ⊢
  split at agrees
  · next index found => exact (agrees text index found).symm
  · exact (agrees text symbols.size (by rw [lookup?_add, if_pos rfl])).symm

/-- A text is at its position, and nowhere else. -/
theorem lookup?_eq_some_iff {text : String} {index : Nat} :
    symbols.lookup? text = some index ↔ symbols.entries[index]? = some text := by
  rw [lookup?_eq, List.findIdx?_eq_some_iff_getElem, ← Array.getElem?_toList]
  constructor
  · rintro ⟨inside, here, _⟩
    exact List.getElem?_eq_some_iff.2 ⟨inside, eq_of_beq here⟩
  · intro found
    obtain ⟨inside, here⟩ := List.getElem?_eq_some_iff.1 found
    refine ⟨inside, beq_iff_eq.2 here, fun earlier before same => ?_⟩
    exact List.pairwise_iff_getElem.1 symbols.nodup earlier index _ inside before ((eq_of_beq same).trans here.symm)

/-- What has been decoded is decoded in the same way later. -/
theorem decode?_of_extends (extends' : later.Extends symbols) {ordinal : Int64} {text : String}
    (decoded : symbols.decode? ordinal = some text) : later.decode? ordinal = some text := by
  rw [decode?] at decoded ⊢
  split at decoded
  · next nonnegative =>
      rw [if_pos nonnegative]
      exact lookup?_eq_some_iff.1 (extends' _ _ (lookup?_eq_some_iff.2 decoded))
  · cases decoded

/-- An ordinal gives its text back if there are not more texts than ordinals. -/
theorem decode?_ordinal {text : String} {index : Nat} (found : symbols.lookup? text = some index)
    (fits : index < 2 ^ 63) : symbols.decode? (symbols.ordinal text) = some text := by
  have isOrdinal : (symbols.ordinal text).toInt = index := by
    rw [ordinal, found, Option.getD_some, Int64.toInt_ofNat_of_lt fits]
  rw [decode?, isOrdinal, if_pos (Int.natCast_nonneg index), Int.toNat_natCast]
  exact lookup?_eq_some_iff.1 found

theorem lookup?_encode (symbols : Symbols) (text : String) :
    ∃ index, (symbols.encode text).2.lookup? text = some index ∧ (symbols.encode text).1 = Int64.ofNat index := by
  rw [encode]
  split
  · next index found => exact ⟨index, found, rfl⟩
  · exact ⟨symbols.size, by rw [lookup?_add, if_pos rfl], rfl⟩

/-- A text that has been interned is not interned again. -/
theorem encode_of_extends {text : String} (extends' : later.Extends (symbols.encode text).2) :
    later.encode text = ((symbols.encode text).1, later) := by
  obtain ⟨index, found, isOrdinal⟩ := lookup?_encode symbols text
  rw [isOrdinal, encode]
  have foundLater := extends' text index found
  split
  · next other alsoFound =>
      rw [foundLater] at alsoFound
      cases alsoFound
      rfl
  · next missing =>
      rw [foundLater] at missing
      cases missing

/-! ## Sequences of calls -/

theorem toList_encode (symbols : Symbols) (text : String) :
    (symbols.encode text).2.toList =
      if text ∈ symbols.toList then symbols.toList else symbols.toList ++ [text] := by
  rw [encode]
  split
  · next index found =>
      have known : text ∈ symbols.toList :=
        Array.mem_toList_iff.2 (Array.mem_of_getElem? (lookup?_eq_some_iff.1 found))
      rw [if_pos known]
  · next missing =>
      have absent : text ∉ symbols.toList := by
        simpa [lookup?, Array.idxOf?_eq_none_iff, toList] using missing
      rw [if_neg absent, toList, add, Array.toList_push]
      rfl

theorem ofList_concat (texts : List String) (text : String) :
    ofList (texts ++ [text]) = ((ofList texts).encode text).2 :=
  List.foldl_concat _ _ _ _

/-- Interning texts makes a table of the different texts in the order of their first calls. -/
theorem toList_ofList (texts : List String) : (ofList texts).toList = texts.eraseDups := by
  induction texts using List.reverseRecOn with
  | nil => rfl
  | append_singleton texts text ih =>
      rw [ofList_concat, toList_encode, ih, List.eraseDups_append]
      by_cases known : text ∈ texts
      · simp [known, List.removeAll]
      · simp [known, List.removeAll, List.eraseDups_cons]

/-- Later calls change no position. -/
theorem ofList_extends (texts more : List String) : (ofList (texts ++ more)).Extends (ofList texts) := by
  induction more using List.reverseRecOn with
  | nil =>
      rw [List.append_nil]
      exact Extends.refl _
  | append_singleton more text ih =>
      rw [← List.append_assoc, ofList_concat]
      exact (encode_extends _ text).trans ih

theorem lookup?_eq_idxOf {text : String} {index : Nat} (found : symbols.lookup? text = some index) :
    index = symbols.toList.idxOf text := by
  have here := lookup?_eq_some_iff.1 found
  rw [← Array.getElem?_toList] at here
  obtain ⟨inside, here⟩ := List.getElem?_eq_some_iff.1 here
  rw [← here]
  exact (symbols.nodup.idxOf_getElem index inside).symm

/-- A table in which everything stays at its place begins with the earlier table. -/
theorem prefix_of_extends (extends' : later.Extends symbols) : symbols.toList <+: later.toList := by
  refine List.prefix_iff_getElem?.2 fun index inside => ?_
  have here : symbols.entries[index]? = some symbols.toList[index] := by
    rw [← Array.getElem?_toList]
    exact List.getElem?_eq_getElem inside
  have there := lookup?_eq_some_iff.1 (extends' _ _ (lookup?_eq_some_iff.2 here))
  rwa [← Array.getElem?_toList] at there

/-- Looking up and decoding are inverse if there are not more texts than ordinals. -/
theorem lookup?_iff_decode? (fits : symbols.size ≤ 2 ^ 63) {text : String} {ordinal : Int64} :
    (symbols.lookup? text).map Int64.ofNat = some ordinal ↔ symbols.decode? ordinal = some text := by
  rw [Option.map_eq_some_iff]
  constructor
  · rintro ⟨index, found, rfl⟩
    have here := lookup?_eq_some_iff.1 found
    have small : index < 2 ^ 63 := Nat.lt_of_lt_of_le (Array.getElem?_eq_some_iff.1 here).1 fits
    rwa [decode?, Int64.toInt_ofNat_of_lt small, if_pos (Int.natCast_nonneg index), Int.toNat_natCast]
  · intro decoded
    rw [decode?] at decoded
    split at decoded
    · next nonnegative =>
        refine ⟨ordinal.toInt.toNat, lookup?_eq_some_iff.2 decoded, ?_⟩
        rw [← Int64.ofInt_eq_ofNat, Int.toNat_of_nonneg nonnegative, Int64.ofInt_toInt]
    · cases decoded

end DatalogRam.Ram.Symbols
