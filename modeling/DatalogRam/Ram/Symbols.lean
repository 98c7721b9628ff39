/-!
# Symbol tables

Texts are values of the machine by their position in a table that only grows. No text is in the table twice,
so a text has one position, which never changes.
-/

namespace DatalogRam.Ram

/-- Interned texts in the order in which they were first interned. -/
structure Symbols where
  entries : Array String
  nodup : entries.toList.Nodup

namespace Symbols

def empty : Symbols where
  entries := #[]
  nodup := by simp

instance : Inhabited Symbols := ⟨empty⟩

def toList (symbols : Symbols) : List String :=
  symbols.entries.toList

def size (symbols : Symbols) : Nat :=
  symbols.entries.size

/-- The position of a text. -/
def lookup? (symbols : Symbols) (text : String) : Option Nat :=
  symbols.entries.idxOf? text

/-- The text at an ordinal. A negative ordinal has none. -/
def decode? (symbols : Symbols) (ordinal : Int64) : Option String :=
  if 0 ≤ ordinal.toInt then symbols.entries[ordinal.toInt.toNat]? else none

/-- Add a text that is not in the table. -/
def add (symbols : Symbols) (text : String) (fresh : text ∉ symbols.entries.toList) : Symbols where
  entries := symbols.entries.push text
  nodup := by
    rw [Array.toList_push]
    exact List.nodup_append.2 ⟨symbols.nodup, by simp, fun a ha b hb => by
      rw [List.mem_singleton.1 hb]
      exact fun heq => fresh (heq ▸ ha)⟩

/-- The ordinal of a text, which is added if it is new. -/
def encode (symbols : Symbols) (text : String) : Int64 × Symbols :=
  match position : symbols.lookup? text with
  | some index => (Int64.ofNat index, symbols)
  | none =>
      (Int64.ofNat symbols.size, symbols.add text (by
        simpa [lookup?, Array.idxOf?_eq_none_iff] using position))

/-- Intern texts one after another. -/
def ofList (texts : List String) : Symbols :=
  texts.foldl (fun symbols text => (symbols.encode text).2) empty

end Symbols

end DatalogRam.Ram
