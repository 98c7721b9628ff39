/-!
# Cutting and joining texts

`cutAt` cuts a text at every occurrence of a separator and `joinWith` puts the separator back.
-/

namespace DatalogRam

/-- Cut a text at every separator. The result has one part more than the text has separators. -/
def cutAt (separator : Char) : List Char → List (List Char)
  | [] => [[]]
  | letter :: rest =>
      if letter = separator then [] :: cutAt separator rest
      else
        match cutAt separator rest with
        | [] => [[letter]]
        | part :: parts => (letter :: part) :: parts

/-- Put a separator between every two parts. -/
def joinWith (separator : Char) : List (List Char) → List Char
  | [] => []
  | [part] => part
  | part :: next :: parts => part ++ separator :: joinWith separator (next :: parts)

theorem cutAt_ne_nil (separator : Char) (letters : List Char) : cutAt separator letters ≠ [] := by
  fun_cases cutAt separator letters <;> simp_all

/-- Joining the parts of a text gives the text. -/
@[simp] theorem joinWith_cutAt (separator : Char) (letters : List Char) :
    joinWith separator (cutAt separator letters) = letters := by
  fun_induction cutAt separator letters with
  | case1 => rfl
  | case2 rest ih =>
      cases hparts : cutAt separator rest with
      | nil => exact absurd hparts (cutAt_ne_nil separator rest)
      | cons part parts => simpa [joinWith, hparts] using ih
  | case3 letter rest _ hparts => exact absurd hparts (cutAt_ne_nil separator rest)
  | case4 letter rest _ part parts hparts ih =>
      cases parts with
      | nil => simpa [joinWith, hparts] using ih
      | cons next others => simpa [joinWith, hparts] using ih

/-! ## Cutting joined texts -/

section Cutting

variable {separator : Char} {letters start part : List Char} {parts : List (List Char)}

/-- No part of a text has a separator. -/
theorem not_mem_of_mem_cutAt (member : part ∈ cutAt separator letters) : separator ∉ part := by
  fun_induction cutAt separator letters generalizing part with
  | case1 => simp_all
  | case2 rest ih =>
      rcases List.mem_cons.1 member with rfl | member
      · exact List.not_mem_nil
      · exact ih member
  | case3 letter rest _ hparts => exact absurd hparts (cutAt_ne_nil separator rest)
  | case4 letter rest different first others hparts ih =>
      rw [hparts] at ih
      rcases List.mem_cons.1 member with rfl | member
      · have apart := ih List.mem_cons_self
        exact List.not_mem_cons_of_ne_of_not_mem (Ne.symm different) apart
      · exact ih (List.mem_cons_of_mem _ member)

/-- Letters that are not the separator go to the first part. -/
theorem cutAt_append (free : separator ∉ start) :
    cutAt separator (start ++ letters) = (cutAt separator letters).modifyHead (start ++ ·) := by
  induction start with
  | nil => exact (congrFun List.modifyHead_id _).symm
  | cons letter rest ih =>
      obtain ⟨different, restFree⟩ := not_or.1 (mt List.mem_cons.2 free)
      rw [List.cons_append, cutAt, if_neg (Ne.symm different), ih restFree]
      cases hparts : cutAt separator letters with
      | nil => exact absurd hparts (cutAt_ne_nil separator letters)
      | cons first others => rfl

theorem cutAt_of_free (free : separator ∉ part) : cutAt separator part = [part] := by
  have whole := @cutAt_append separator [] part free
  rwa [List.append_nil, cutAt, List.modifyHead_cons, List.append_nil] at whole

/-- Cutting joined parts gives the parts back. -/
theorem cutAt_joinWith (nonempty : parts ≠ []) (free : ∀ part ∈ parts, separator ∉ part) :
    cutAt separator (joinWith separator parts) = parts := by
  fun_induction joinWith separator parts with
  | case1 => exact absurd rfl nonempty
  | case2 part => exact cutAt_of_free (free part List.mem_cons_self)
  | case3 part next others ih =>
      rw [cutAt_append (free part List.mem_cons_self), cutAt, if_pos rfl,
        ih (List.cons_ne_nil _ _) fun other member => free other (List.mem_cons_of_mem _ member)]
      rw [List.modifyHead_cons, List.append_nil]

end Cutting

/-- Whether `text` begins with `start`. -/
def beginsWith (start text : String) : Bool :=
  start.toList.isPrefixOf text.toList

end DatalogRam
