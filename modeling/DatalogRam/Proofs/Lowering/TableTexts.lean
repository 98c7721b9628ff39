import DatalogRam.Proofs.Evaluation.Tables
import DatalogRam.Proofs.Lowering.ExplanationWriting

/-!
# The texts of tables

The analyses compare names by their segments. A store only sees texts: those of relations, those with a mark in
front for the rounds of a loop, and those of info relations with two segments more. Segments are lost in a text,
but a name that was read from a text has no dot within a segment, so it can be read again.

Two tables have the same text only when they are the same table, as long as no relation takes a mark for itself.
-/

namespace DatalogRam

/-! ## Names that were read -/

namespace Name

/-- A name that reading a text can give. -/
structure IsRead (name : Name) : Prop where
  nonempty : name.segments ≠ []
  dotFree : ∀ segment ∈ name.segments, '.' ∉ segment.toList

theorem isRead_parse (text : String) : (parse text).IsRead where
  nonempty := by simpa [parse] using cutAt_ne_nil '.' text.toList
  dotFree := by
    intro segment member
    obtain ⟨part, isPart, rfl⟩ := List.mem_map.1 member
    rw [String.toList_ofList]
    exact not_mem_of_mem_cutAt isPart

/-- Reading the text of a name that was read gives the name. -/
theorem IsRead.parse_text {name : Name} (isRead : name.IsRead) : parse name.text = name := by
  have free : ∀ part ∈ name.segments.map String.toList, '.' ∉ part := by
    intro part member
    obtain ⟨segment, isSegment, rfl⟩ := List.mem_map.1 member
    exact isRead.dotFree segment isSegment
  have cut := cutAt_joinWith (by simpa using isRead.nonempty) free
  simp [parse, Name.text, cut, Function.comp_def]

/-- Names that were read are told apart by their texts. -/
theorem IsRead.text_inj {name other : Name} (isRead : name.IsRead) (alsoRead : other.IsRead) :
    name.text = other.text ↔ name = other := by
  refine ⟨fun same => ?_, congrArg _⟩
  rw [← isRead.parse_text, same, alsoRead.parse_text]

theorem parse_inj {first second : String} : parse first = parse second ↔ first = second := by
  refine ⟨fun same => ?_, congrArg _⟩
  rw [← text_parse first, same, text_parse]

theorem IsRead.append {name : Name} {segment : String} (isRead : name.IsRead) (dotFree : '.' ∉ segment.toList) :
    (name.append segment).IsRead where
  nonempty := by simp [Name.append]
  dotFree := by
    intro other member
    rcases List.mem_append.1 member with member | member
    · exact isRead.dotFree other member
    · rwa [List.mem_singleton.1 member]

/-- A segment of a text with a mark in front is the marked first segment or a segment of the text. -/
theorem mem_segments_marked {mark text segment : String} (free : '.' ∉ mark.toList)
    (member : segment ∈ (parse (mark ++ text)).segments) :
    (∃ rest, segment = mark ++ rest) ∨ segment ∈ (parse text).segments := by
  rw [parse, String.toList_append, cutAt_append free] at member
  rw [parse]
  cases hparts : cutAt '.' text.toList with
  | nil => exact absurd hparts (cutAt_ne_nil _ _)
  | cons first others =>
      rw [hparts, List.modifyHead_cons, List.map_cons, List.mem_cons] at member
      rcases member with rfl | member
      · exact Or.inl ⟨String.ofList first, by rw [String.ofList_append, String.ofList_toList]⟩
      · exact Or.inr (List.mem_cons_of_mem _ member)

end Name

namespace Lowering

/-! ## The tables of relations and rules -/

/-- A table of a relation, or the one that describes a rule for it. -/
inductive TableKind where
  | relation (part : Part)
  | info (number : Nat)
  deriving DecidableEq

/-- The text under which a store keeps a table. -/
def TableKind.table : TableKind → Name → String
  | relation part, name => part.table name
  | info number, name => (infoName name number).text

/-- A name that was read from a text and does not look like the name of a table for rounds or a description. -/
structure IsOrdinary (name : Name) : Prop where
  parsed : ∃ text, Name.parse text = name
  notDelta : beginsWith "@delta_" name.text = false
  notFresh : beginsWith "@new_" name.text = false
  notInfo : "@info" ∉ name.segments

variable {name other : Name}

theorem IsOrdinary.isRead (ordinary : IsOrdinary name) : name.IsRead := by
  obtain ⟨text, rfl⟩ := ordinary.parsed
  exact Name.isRead_parse text

theorem isRead_infoName (isRead : name.IsRead) (number : Nat) : (infoName name number).IsRead := by
  refine (isRead.append (by decide)).append fun member => ?_
  rw [Nat.toString_eq_repr, Nat.toList_repr] at member
  have isDigit := Nat.isDigit_of_mem_toDigits (by decide) (by decide) member
  exact absurd isDigit (by decide)

/-- The name of an info relation tells its relation and its number. -/
theorem infoName_inj {number count : Nat} :
    infoName name number = infoName other count ↔ name = other ∧ number = count := by
  refine ⟨fun same => ?_, fun ⟨sameName, sameNumber⟩ => by rw [sameName, sameNumber]⟩
  have segments := congrArg Name.segments same
  simp only [infoName, Name.append, List.append_assoc] at segments
  obtain ⟨sameSegments, tail⟩ := List.append_inj' segments rfl
  refine ⟨?_, ?_⟩
  · cases name
    cases other
    exact congrArg Name.mk sameSegments
  · have digits := (List.cons.inj (List.cons.inj tail).2).1
    have letters := congrArg String.toList digits
    rw [Nat.toString_eq_repr, Nat.toString_eq_repr, Nat.toList_repr, Nat.toList_repr] at letters
    exact toDigits_inj letters

/-- A text that was marked begins with its mark. -/
theorem beginsWith_append (mark text : String) : beginsWith mark (mark ++ text) = true := by
  simp [beginsWith]

theorem IsOrdinary.part_inj (ordinary : IsOrdinary name) (alsoOrdinary : IsOrdinary other) (part more : Part) :
    part.table name = more.table other ↔ part = more ∧ name = other := by
  refine ⟨fun same => ?_, fun ⟨samePart, sameName⟩ => by rw [samePart, sameName]⟩
  have sameName (texts : name.text = other.text) : name = other :=
    (ordinary.isRead.text_inj alsoOrdinary.isRead).1 texts
  cases part <;> cases more <;> simp only [Part.table, deltaName, freshName] at same
  case full.full => exact ⟨rfl, sameName same⟩
  case delta.delta => exact ⟨rfl, sameName ((String.append_right_inj _).1 same)⟩
  case fresh.fresh => exact ⟨rfl, sameName ((String.append_right_inj _).1 same)⟩
  case full.delta => exact absurd (beginsWith_append _ _) (by rw [← same, ordinary.notDelta]; decide)
  case full.fresh => exact absurd (beginsWith_append _ _) (by rw [← same, ordinary.notFresh]; decide)
  case delta.full => exact absurd (beginsWith_append _ _) (by rw [same, alsoOrdinary.notDelta]; decide)
  case fresh.full => exact absurd (beginsWith_append _ _) (by rw [same, alsoOrdinary.notFresh]; decide)
  all_goals
    have letters := congrArg (·.toList[1]?) same
    simp at letters

/-- No table of an ordinary relation reads as a name with the segment of info relations. -/
theorem IsOrdinary.info_not_mem (ordinary : IsOrdinary name) (part : Part) :
    "@info" ∉ (Name.parse (part.table name)).segments := by
  have unmarked {mark : String} (free : '.' ∉ mark.toList) (apart : beginsWith mark "@info" = false) :
      "@info" ∉ (Name.parse (mark ++ name.text)).segments := by
    intro member
    rcases Name.mem_segments_marked free member with ⟨rest, isMarked⟩ | member
    · rw [isMarked, beginsWith_append] at apart
      exact Bool.noConfusion apart
    · rw [ordinary.isRead.parse_text] at member
      exact ordinary.notInfo member
  cases part with
  | full =>
      rw [Part.table, ordinary.isRead.parse_text]
      exact ordinary.notInfo
  | delta => exact unmarked (by decide) (by decide)
  | fresh => exact unmarked (by decide) (by decide)

theorem info_mem (isRead : name.IsRead) (number : Nat) :
    "@info" ∈ (Name.parse (infoName name number).text).segments := by
  rw [(isRead_infoName isRead number).parse_text]
  simp [infoName, Name.append]

/-- The tables of ordinary relations and of the rules for them are told apart by their texts. -/
theorem IsOrdinary.table_inj (ordinary : IsOrdinary name) (alsoOrdinary : IsOrdinary other) (kind more : TableKind) :
    kind.table name = more.table other ↔ kind = more ∧ name = other := by
  refine ⟨fun same => ?_, fun ⟨sameKind, sameName⟩ => by rw [sameKind, sameName]⟩
  cases kind with
  | relation part =>
      cases more with
      | relation also =>
          obtain ⟨samePart, sameName⟩ := (ordinary.part_inj alsoOrdinary part also).1 same
          exact ⟨congrArg TableKind.relation samePart, sameName⟩
      | info number =>
          have described := info_mem alsoOrdinary.isRead number
          rw [← show part.table name = (infoName other number).text from same] at described
          exact absurd described (ordinary.info_not_mem part)
  | info number =>
      cases more with
      | relation part =>
          have described := info_mem ordinary.isRead number
          rw [show (infoName name number).text = part.table other from same] at described
          exact absurd described (alsoOrdinary.info_not_mem part)
      | info count =>
          have sameInfo := ((isRead_infoName ordinary.isRead number).text_inj
            (isRead_infoName alsoOrdinary.isRead count)).1 same
          obtain ⟨sameName, sameNumber⟩ := infoName_inj.1 sameInfo
          exact ⟨congrArg TableKind.info sameNumber, sameName⟩

/-- Names are read without loss, and the tables of relations and of the rules for them never share a text. -/
theorem table_texts_apart {name other : Name} (ordinary : IsOrdinary name) (alsoOrdinary : IsOrdinary other) :
    (∀ text, (Name.parse text).text = text) ∧
      (∀ first second, Name.parse first = Name.parse second ↔ first = second) ∧
      (name = other ↔ name.text = other.text) ∧
      ∀ kind more : TableKind, kind.table name = more.table other ↔ kind = more ∧ name = other := by
  refine ⟨Name.text_parse, fun first second => Name.parse_inj, ?_, ordinary.table_inj alsoOrdinary⟩
  exact (ordinary.isRead.text_inj alsoOrdinary.isRead).symm

/-- A relation whose name ends in a number is not mistaken for a numbered rule of another relation. -/
theorem table_texts_apart_numbered :
    IsOrdinary (Name.parse "edge") ∧ IsOrdinary (Name.parse "edge.1") ∧
      ∀ kind more : TableKind, kind.table (Name.parse "edge") ≠ more.table (Name.parse "edge.1") := by
  have edge : IsOrdinary (Name.parse "edge") := ⟨⟨_, rfl⟩, by decide, by decide, by decide⟩
  have numbered : IsOrdinary (Name.parse "edge.1") := ⟨⟨_, rfl⟩, by decide, by decide, by decide⟩
  refine ⟨edge, numbered, fun kind more same => ?_⟩
  have equal := ((table_texts_apart edge numbered).2.2.2 kind more).1 same
  exact absurd equal.2 (by decide)

end Lowering

end DatalogRam
