import DatalogRam.EventFilter
import DatalogRam.Proofs.Pattern

/-!
# Reading directives

A text is read letter by letter, and its parts are cut out at offsets in bytes. Without a span, a directive is a
word or a target with a level behind an equals sign: a word is a level if it can be and otherwise a target, and a
target has the letters before the sign. Commas separate directives, and each is read for itself.
-/

namespace DatalogRam

/-! ## Classes of letters -/

namespace Letter

variable {letter mark : Char} {front rest : List Char}

/-- Whether no range meets a range of another list. -/
def apart (ranges others : List (Nat × Nat)) : Bool :=
  ranges.all fun range => others.all fun other => decide (range.2 < other.1) || decide (other.2 < range.1)

theorem inRanges_eq_false_of_apart {ranges others : List (Nat × Nat)} (isApart : apart ranges others)
    (within : inRanges ranges letter) : inRanges others letter = false := by
  simp only [apart, List.all_eq_true, Bool.or_eq_true, decide_eq_true_eq] at isApart
  simp only [inRanges, List.any_eq_true, Bool.and_eq_true, decide_eq_true_eq] at within
  obtain ⟨range, isRange, above, below⟩ := within
  simp only [inRanges, List.any_eq_false, Bool.and_eq_true, decide_eq_true_eq, not_and]
  intro other isOther above' below'
  have := isApart range isRange other isOther
  omega

theorem apart_alphabeticRanges : apart alphabeticRanges blankRanges := by decide +kernel

theorem apart_numericRanges : apart numericRanges blankRanges := by decide +kernel

/-- No letter or number of any script is white space. -/
theorem isBlank_of_isAlphanumeric (isLetter : isAlphanumeric letter) : isBlank letter = false := by
  rcases Bool.or_eq_true_iff.1 isLetter with isLetter | isNumber
  · exact inRanges_eq_false_of_apart apart_alphabeticRanges isLetter
  · exact inRanges_eq_false_of_apart apart_numericRanges isNumber

/-- Blanks are taken from the end of a text, at most up to a letter that is none. -/
theorem trim_append_cons (begins : ∀ first ∈ (front ++ [mark]).head?, isBlank first = false)
    (solid : isBlank mark = false) :
    trim (front ++ mark :: rest) = front ++ mark :: (rest.reverse.dropWhile isBlank).reverse := by
  have kept : (front ++ mark :: rest).dropWhile isBlank = front ++ mark :: rest := by
    cases front with
    | nil => simp [solid]
    | cons first others => simp [begins first rfl]
  have back : (front ++ mark :: rest).reverse = rest.reverse ++ mark :: front.reverse := by simp
  rw [trim, kept, back, List.dropWhile_append]
  split
  next isEmpty => simp [solid, List.isEmpty_iff.1 isEmpty]
  next => simp

end Letter

namespace Directive

/-! ## Offsets in bytes -/

variable {whole front back letters word others : List Char} {first : Char} {start offset : Nat}
  {directive : Directive}

/-- How many bytes a text has. -/
def size : List Char → Nat
  | [] => 0
  | letter :: letters => letter.utf8Size + size letters

theorem size_append (front back : List Char) : size (front ++ back) = size front + size back := by
  induction front with
  | nil => simp [size]
  | cons letter front ih => simp only [List.cons_append, size, ih, Nat.add_assoc]

@[simp] theorem dropBytes?_zero (letters : List Char) : dropBytes? 0 letters = some letters := by
  rw [dropBytes?]

@[simp] theorem takeBytes?_zero (letters : List Char) : takeBytes? 0 letters = some [] := by
  rw [takeBytes?]

/-- Of a count that is not used up, a letter takes its bytes. -/
theorem dropBytes?_cons (letter : Char) (count : Nat) (letters : List Char) :
    dropBytes? (letter.utf8Size + count) (letter :: letters) = dropBytes? count letters := by
  obtain ⟨more, isMore⟩ := Nat.exists_eq_add_one_of_ne_zero (Nat.ne_of_gt letter.utf8Size_pos)
  rw [show letter.utf8Size + count = (more + count) + 1 by omega, dropBytes?, if_pos (by omega)]
  congr 1
  omega

theorem takeBytes?_cons (letter : Char) (count : Nat) (letters : List Char) :
    takeBytes? (letter.utf8Size + count) (letter :: letters) = (takeBytes? count letters).map (letter :: ·) := by
  obtain ⟨more, isMore⟩ := Nat.exists_eq_add_one_of_ne_zero (Nat.ne_of_gt letter.utf8Size_pos)
  rw [show letter.utf8Size + count = (more + count) + 1 by omega, takeBytes?, if_pos (by omega)]
  congr 2
  omega

@[simp] theorem dropBytes?_size (front back : List Char) : dropBytes? (size front) (front ++ back) = some back := by
  induction front with
  | nil => exact dropBytes?_zero back
  | cons letter front ih => rw [size, List.cons_append, dropBytes?_cons, ih]

@[simp] theorem takeBytes?_size (front back : List Char) : takeBytes? (size front) (front ++ back) = some front := by
  induction front with
  | nil => exact takeBytes?_zero back
  | cons letter front ih => rw [size, List.cons_append, takeBytes?_cons, ih, Option.map_some]

@[simp] theorem between?_zero_size (front back : List Char) : between? 0 (size front) (front ++ back) = some front := by
  simp [between?]

/-! ## One part of a directive after the other -/

theorem isBlank_of_beginsTarget {letter : Char} (begins : beginsTarget letter) : Letter.isBlank letter = false := by
  simp only [beginsTarget, Bool.or_eq_true, beq_iff_eq] at begins
  rcases begins with ((rfl | rfl) | rfl) | isLetter
  · decide
  · decide
  · decide
  · exact Letter.isBlank_of_isAlphanumeric isLetter

/-- A word goes on up to an equals sign or an opening bracket. -/
theorem foldlM_step_word (free : ∀ letter ∈ letters, letter ≠ '=' ∧ letter ≠ '[') :
    letters.foldlM (Scan.step whole) ⟨offset, .word start, directive⟩ =
      some ⟨offset + size letters, .word start, directive⟩ := by
  induction letters generalizing offset with
  | nil => rfl
  | cons letter letters ih =>
      obtain ⟨noSign, noBracket⟩ := free letter List.mem_cons_self
      have step : Scan.step whole ⟨offset, .word start, directive⟩ letter =
          some ⟨offset + letter.utf8Size, .word start, directive⟩ := by
        have stays : advance whole offset directive (.word start) letter = some (.word start, directive) := by
          rw [advance]
          · exact noSign
          · exact noBracket
        rw [Scan.step, stays]
        rfl
      rw [List.foldlM_cons, step]
      change letters.foldlM (Scan.step whole) _ = _
      rw [ih fun other member => free other (List.mem_cons_of_mem _ member), size, Nat.add_assoc]

/-- A level goes on to the end. -/
theorem foldlM_step_level :
    letters.foldlM (Scan.step whole) ⟨offset, .level start, directive⟩ =
      some ⟨offset + size letters, .level start, directive⟩ := by
  induction letters generalizing offset with
  | nil => rfl
  | cons letter letters ih =>
      rw [List.foldlM_cons]
      change letters.foldlM (Scan.step whole) ⟨offset + letter.utf8Size, .level start, directive⟩ = _
      rw [ih, size, Nat.add_assoc]

/-- A target is read up to the sign behind it. -/
theorem foldlM_step_target (begins : beginsTarget first)
    (free : ∀ letter ∈ others, letter ≠ '=' ∧ letter ≠ '[') :
    (first :: others).foldlM (Scan.step whole) {} = some ⟨size (first :: others), .word 0, {}⟩ := by
  have enters : advance whole 0 {} .start first = some (.word 0, {}) := by
    rw [advance, if_pos begins]
    -- The opening bracket begins no target.
    rintro rfl
    revert begins
    decide +kernel
  have step : Scan.step whole {} first = some ⟨first.utf8Size, .word 0, {}⟩ := by
    rw [Scan.step, enters]
    simp
  rw [List.foldlM_cons, step]
  change others.foldlM (Scan.step whole) _ = _
  rw [foldlM_step_word free, size]

/-- A word alone is a level if it can be, and otherwise a target. -/
theorem parse?_word (begins : beginsTarget first) (free : ∀ letter ∈ others, letter ≠ '=' ∧ letter ≠ '[') :
    parse? (first :: others) = some (match threshold? (first :: others) with
      | some threshold => { threshold }
      | none => { target := String.ofList (first :: others) }) := by
  have trimmed : Letter.trim (first :: others) =
      first :: (others.reverse.dropWhile Letter.isBlank).reverse :=
    @Letter.trim_append_cons first [] others (by simp [isBlank_of_beginsTarget begins]) (isBlank_of_beginsTarget begins)
  rw [parse?, trimmed, foldlM_step_target begins]
  · cases isLevel : threshold? (first :: others) <;> simp [Scan.finish, isLevel]
  · intro letter member
    have member := (List.dropWhile_sublist _).mem (List.mem_reverse.1 member)
    exact free letter (List.mem_reverse.1 member)

/-- A target with a level behind an equals sign. Without a level all events are let through. -/
theorem parse?_assigned (begins : beginsTarget first) (free : ∀ letter ∈ others, letter ≠ '=' ∧ letter ≠ '[') :
    parse? (first :: others ++ '=' :: word) =
      if word.isEmpty then some { target := String.ofList (first :: others) }
      else (threshold? word).map fun threshold => { target := String.ofList (first :: others), threshold } := by
  have trimmed : Letter.trim (first :: others ++ '=' :: word) =
      first :: others ++ '=' :: (word.reverse.dropWhile Letter.isBlank).reverse :=
    Letter.trim_append_cons (by simp [isBlank_of_beginsTarget begins]) (by decide)
  have sign : Scan.step (first :: others ++ '=' :: word) ⟨size (first :: others), .word 0, {}⟩ '=' =
      some ⟨size (first :: others) + 1, .level (size (first :: others) + 1),
        { target := String.ofList (first :: others) }⟩ := by
    rw [Scan.step, advance, between?_zero_size]
    rfl
  have behind : dropBytes? (size (first :: others) + 1) (first :: others ++ '=' :: word) = some word := by
    have dropped := dropBytes?_size (first :: others ++ ['=']) word
    have sign : size ['='] = 1 := by decide
    rwa [size_append, sign, List.append_assoc] at dropped
  rw [parse?, trimmed, List.foldlM_append, foldlM_step_target begins free]
  simp only [Option.bind_eq_bind, Option.bind_some, List.foldlM_cons, sign, foldlM_step_level, Scan.finish, behind]
  split
  next => rfl
  next => cases threshold? word <;> rfl

end Directive

namespace EventFilter

/-! ## Filters -/

variable {written : List (List Char)} {text : String} {filter : EventFilter}

/-- What commas join is read part for part. -/
theorem parts_joinWith (nonempty : [] ∉ written) (free : ∀ part ∈ written, ',' ∉ part) :
    parts (String.ofList (joinWith ',' written)) = written := by
  cases written with
  | nil => rfl
  | cons part others =>
      rw [parts, String.toList_ofList, cutAt_joinWith (List.cons_ne_nil _ _) free]
      refine List.filter_eq_self.2 fun other member => ?_
      cases other with
      | nil => exact absurd member nonempty
      | cons letter letters => rfl

/-- Where all of a text can be read, nothing is left out. -/
theorem parseLeniently_of_parse? (isRead : parse? text = some filter) : parseLeniently text = filter := by
  unfold parse? at isRead
  unfold parseLeniently
  generalize parts text = written at isRead ⊢
  induction written generalizing filter with
  | nil => simpa using isRead
  | cons part others ih =>
      simp only [List.mapM_cons, Option.pure_def, Option.bind_eq_bind, Option.bind_eq_some_iff, Option.some.injEq]
        at isRead
      obtain ⟨directive, first, rest, isRest, rfl⟩ := isRead
      rw [List.filterMap_cons_some first, ih isRest]

/-- A text that a directive can have as its target without a mark being taken for another part. -/
def IsTarget (target : String) : Prop :=
  ∃ first others, target.toList = first :: others ∧ Directive.beginsTarget first ∧
    ∀ letter ∈ others, letter ≠ '=' ∧ letter ≠ '[' ∧ letter ≠ ','

/-- A target and a level with an equals sign between them. -/
def assignment (target : String) (level : Level) : List Char :=
  target.toList ++ '=' :: level.name.toList

theorem parse?_assignment {target : String} (isTarget : IsTarget target) (level : Level) :
    Directive.parse? (assignment target level) = some { target, threshold := some level } := by
  obtain ⟨first, others, letters, begins, free⟩ := isTarget
  have isLevel : Directive.threshold? level.name.toList = some (some level) := by cases level <;> decide
  have isWritten : level.name.toList.isEmpty = false := by cases level <;> decide
  rw [assignment, letters, Directive.parse?_assigned begins fun letter member => ?_, isWritten, isLevel,
    ← letters, String.ofList_toList]
  · rfl
  · exact ⟨(free letter member).1, (free letter member).2.1⟩

theorem comma_not_mem_assignment {target : String} (isTarget : IsTarget target) (level : Level) :
    ',' ∉ assignment target level := by
  obtain ⟨first, others, letters, begins, free⟩ := isTarget
  have ahead : ',' ≠ first := by
    rintro rfl
    revert begins
    decide +kernel
  have behind : ',' ∉ level.name.toList := by cases level <;> decide
  have within : ',' ∉ others := fun member => (free ',' member).2.2 rfl
  simp [assignment, letters, ahead, behind, within]

/-- A filter of targets with their levels is read as it is written. -/
theorem parse?_assignments (levels : List (String × Level)) (areTargets : ∀ entry ∈ levels, IsTarget entry.1) :
    parse? (String.ofList (joinWith ',' (levels.map fun (target, level) => assignment target level))) =
      some (levels.map fun (target, level) => { target, threshold := some level }) := by
  have isParted : parts (String.ofList (joinWith ',' (levels.map fun (target, level) => assignment target level))) =
      levels.map fun (target, level) => assignment target level := by
    apply parts_joinWith
    · simp [assignment]
    · intro part member
      obtain ⟨⟨target, level⟩, isEntry, rfl⟩ := List.mem_map.1 member
      exact comma_not_mem_assignment (areTargets _ isEntry) level
  rw [parse?, isParted]
  clear isParted
  induction levels with
  | nil => rfl
  | cons entry levels ih =>
      obtain ⟨target, level⟩ := entry
      have others := ih fun other member => areTargets other (List.mem_cons_of_mem _ member)
      simp [List.mapM_cons, parse?_assignment (areTargets _ List.mem_cons_self) level, others]

/-! ## Numbers as values of fields -/

open Pattern (Simple isPlain)

variable {letters rest digits : List Char} {letter : Char}

theorem isPlain_of_isDecimalDigit (isDigit : Letter.isDecimalDigit letter) : isPlain letter := by
  have noDigits : Pattern.marks.all (!Letter.isDecimalDigit ·) := by decide
  simp only [isPlain, List.contains_eq_mem, Bool.not_eq_true', decide_eq_false_iff_not]
  intro isMark
  have noDigit := List.all_eq_true.1 noDigits letter isMark
  simp [isDigit] at noDigit

theorem isPlain_of_mem_digits (areDigits : digits.all Letter.isDecimalDigit) :
    ∀ letter ∈ digits, isPlain letter := fun letter member =>
  isPlain_of_isDecimalDigit (List.all_eq_true.1 areDigits letter member)

/-- Only a plus sign is no plain letter, and it repeats the letter in front. -/
theorem simple_of_unsigned (plain : isPlain letter) (areDigits : (unsigned rest).all Letter.isDecimalDigit) :
    Simple (letter :: rest) := by
  have plain' := isPlain_of_mem_digits areDigits
  have ahead : ∀ other ∈ [letter], isPlain other := by simpa using plain
  unfold unsigned at plain'
  split at plain'
  next digits =>
    have minus := (Simple.plain plain').append (List.all_eq_true.1 (by decide : ['-'].all isPlain))
    exact minus.append ahead
  next digits => exact .repeated (by simpa using plain : ∀ other ∈ [] ++ [letter], isPlain other) plain'
  next => exact (Simple.plain plain').append ahead

theorem simple_of_exponent? (isExponent : exponent? rest = some digits)
    (areDigits : digits.all Letter.isDecimalDigit) : Simple rest := by
  unfold exponent? at isExponent
  split at isExponent
  next =>
    obtain rfl := Option.some.inj isExponent
    exact simple_of_unsigned (by decide) areDigits
  next =>
    obtain rfl := Option.some.inj isExponent
    exact simple_of_unsigned (by decide) areDigits
  next => cases isExponent

/-- Digits in front change nothing. -/
theorem simple_of_dropWhile (simple : Simple (letters.dropWhile Letter.isDecimalDigit)) : Simple letters := by
  have whole : Simple (letters.takeWhile Letter.isDecimalDigit ++ letters.dropWhile Letter.isDecimalDigit) :=
    simple.append (isPlain_of_mem_digits List.all_takeWhile)
  rwa [List.takeWhile_append_dropWhile] at whole

theorem simple_of_fraction (simple : Simple (fraction letters).2) : Simple letters := by
  unfold fraction at simple
  split at simple
  next rest => exact (simple_of_dropWhile simple).append (List.all_eq_true.1 (by decide : ['.'].all isPlain))
  next => exact simple

theorem simple_of_isDecimal (isNumber : isDecimal letters) : Simple letters := by
  simp only [isDecimal, Bool.and_eq_true] at isNumber
  obtain ⟨-, isNumber⟩ := isNumber
  apply simple_of_dropWhile
  apply simple_of_fraction
  split at isNumber
  next digits isExponent => exact simple_of_exponent? isExponent (Bool.and_eq_true_iff.1 isNumber).2
  next =>
    rw [List.isEmpty_iff.1 isNumber]
    exact .plain fun _ member => nomatch member

/-- The value of a field can be a number with any sign or with none. -/
theorem isValue_of_isDecimal (isNumber : isDecimal letters) :
    isValue letters ∧ isValue ('-' :: letters) ∧ isValue ('+' :: letters) := by
  have simple := simple_of_isDecimal isNumber
  have negative : Simple ('-' :: letters) := simple.append (List.all_eq_true.1 (by decide : ['-'].all isPlain))
  refine ⟨?_, ?_, ?_⟩
  · simp [isValue, simple.wellFormed]
  · simp [isValue, negative.wellFormed]
  · simp [isValue, isSigned, isNumber]

end EventFilter

end DatalogRam
