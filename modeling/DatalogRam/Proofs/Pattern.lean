import DatalogRam.Pattern.Expression

/-!
# Reading patterns

Every step of reading a pattern takes a letter, so the count of steps never ends it: with any count that is more than
the length of the text, the same is read. A step within a class may take none, but then the next one does.

Plain text is a pattern, and so is plain text in which one letter is repeated.
-/

namespace DatalogRam.Pattern

variable {modes : Modes} {letters rest : List Char} {item : Item}

/-! ## What is left of a text -/

theorem length_dropBlanks_le (within : Bool) (letters : List Char) :
    (dropBlanks within letters).length ≤ letters.length := by
  fun_induction dropBlanks within letters <;> simp <;> omega

theorem Modes.length_skip_le (modes : Modes) (letters : List Char) : (modes.skip letters).length ≤ letters.length := by
  unfold skip
  split
  · exact length_dropBlanks_le false letters
  · exact Nat.le_refl _

theorem length_of_readCode {count value code : Nat} (isRead : readCode modes count value letters = some (code, rest)) :
    rest.length ≤ letters.length := by
  induction count generalizing value letters with
  | zero =>
      obtain ⟨-, rfl⟩ : value = code ∧ letters = rest := by simpa [readCode] using isRead
      exact Nat.le_refl _
  | succ count ih =>
      cases letters with
      | nil => simp [readCode] at isRead
      | cons digit others =>
          simp only [readCode, Option.bind_eq_bind, Option.bind_eq_some_iff] at isRead
          obtain ⟨value', -, isRest⟩ := isRead
          exact Nat.le_succ_of_le (Nat.le_trans (ih isRest) (modes.length_skip_le others))

theorem length_of_readCoded {digits : Nat} (isRead : readCoded modes digits letters = some (item, rest)) :
    rest.length ≤ letters.length := by
  simp only [readCoded, Option.bind_eq_bind, Option.bind_eq_some_iff] at isRead
  obtain ⟨⟨code, others⟩, isCode, isRest⟩ := isRead
  split at isRest
  next =>
    obtain ⟨-, rfl⟩ := Prod.mk.inj (Option.some.inj isRest)
    exact Nat.le_trans (length_of_readCode isCode) (modes.length_skip_le letters)
  next => cases isRest

theorem length_of_readEscape (isRead : readEscape modes letters = some (item, rest)) :
    rest.length < letters.length := by
  cases letters with
  | nil => cases isRead
  | cons letter others =>
      suffices kept : rest.length ≤ others.length from Nat.lt_succ_of_le kept
      simp only [readEscape] at isRead
      -- Three letters begin a code; all others are the whole escape.
      split at isRead <;> first
        | exact length_of_readCoded isRead
        | grind

theorem length_of_readItem (isRead : readItem modes letters = some (item, rest)) : rest.length < letters.length := by
  unfold readItem at isRead
  split at isRead
  next => cases isRead
  next => exact Nat.lt_succ_of_lt (length_of_readEscape isRead)
  next =>
    obtain ⟨-, rfl⟩ := Prod.mk.inj (Option.some.inj isRead)
    exact Nat.lt_succ_self _

theorem length_of_readClassPart (isRead : readClassPart modes letters = some rest) : rest.length < letters.length := by
  simp only [readClassPart, Option.bind_eq_bind, Option.bind_eq_some_iff] at isRead
  obtain ⟨⟨low, behind⟩, isLow, isRest⟩ := isRead
  have shorter := Nat.lt_of_le_of_lt (modes.length_skip_le behind) (length_of_readItem isLow)
  split at isRest
  next => cases isRest
  next =>
    split at isRest
    next others isHyphen =>
      rw [isHyphen, List.length_cons] at shorter
      split at isRest
      next =>
        obtain rfl := Option.some.inj isRest
        rwa [isHyphen]
      next =>
        simp only [Option.bind_eq_some_iff] at isRest
        obtain ⟨⟨high, behind'⟩, isHigh, isRest⟩ := isRest
        have shorter' := Nat.lt_of_lt_of_le (length_of_readItem isHigh) (modes.length_skip_le others)
        obtain rfl : behind' = rest := by grind
        omega
    next =>
      obtain rfl := Option.some.inj isRest
      exact shorter

theorem length_of_readNamedClass {negated : Bool} (isRead : readNamedClass letters = some (negated, rest)) :
    rest.length ≤ letters.length := by
  unfold readNamedClass at isRead
  split at isRead
  next others =>
    split at isRead
    next name isName =>
      have shorter : name.length ≤ others.length := by
        split at isName <;> obtain ⟨-, rfl⟩ := Prod.mk.inj isName
        · exact Nat.le_succ _
        · exact Nat.le_refl _
      split at isRead
      next behind isEnd =>
        have dropped := (List.dropWhile_sublist (· != ':') : (name.dropWhile _).Sublist name).length_le
        rw [isEnd, List.length_cons, List.length_cons] at dropped
        split at isRead
        next =>
          obtain ⟨-, rfl⟩ := Prod.mk.inj (Option.some.inj isRead)
          rw [List.length_cons]
          omega
        next => cases isRead
      next => cases isRead
  next => cases isRead

theorem length_of_openClass (isOpened : openClass modes letters = some rest) : rest.length ≤ letters.length := by
  have shorter := modes.length_skip_le letters
  unfold openClass at isOpened
  split at isOpened
  next others isMark =>
    rw [isMark, List.length_cons] at shorter
    split at isOpened
    next =>
      obtain rfl := Option.some.inj isOpened
      omega
    next => cases isOpened
  next =>
    obtain rfl := Option.some.inj isOpened
    exact shorter

/-! ## Classes -/

theorem readClass_congr {fuel fuel' : Nat} {opening : Bool} {level : ClassLevel} {outer : List ClassLevel}
    (enough : 2 * letters.length + opening.toNat < fuel) (enough' : 2 * letters.length + opening.toNat < fuel') :
    readClass modes fuel opening level outer letters = readClass modes fuel' opening level outer letters := by
  induction fuel generalizing fuel' opening level outer letters with
  | zero => omega
  | succ fuel ih =>
      obtain ⟨fuel', rfl⟩ := Nat.exists_eq_add_one_of_ne_zero (Nat.ne_of_gt (Nat.zero_lt_of_lt enough'))
      have again {opening' : Bool} {level : ClassLevel} {outer : List ClassLevel} {others : List Char}
          (less : 2 * others.length + opening'.toNat < 2 * letters.length + opening.toNat) :
          readClass modes fuel opening' level outer others = readClass modes fuel' opening' level outer others :=
        ih (by omega) (by omega)
      have shorter := modes.length_skip_le letters
      cases opening with
      | true =>
          simp only [readClass]
          split
          next others isHyphen =>
            rw [isHyphen, List.length_cons] at shorter
            rw [again (by grind)]
          next others isBracket =>
            rw [isBracket, List.length_cons] at shorter
            rw [again (by grind), again (by grind)]
          next => exact again (by grind)
      | false =>
          simp only [readClass]
          split
          next others isBracket =>
            rw [isBracket, List.length_cons] at shorter
            split
            next negated rest named =>
              have behind := length_of_readNamedClass named
              rw [again (by grind)]
            next =>
              cases isOpened : openClass modes others with
              | none => rfl
              | some rest =>
                  have behind := length_of_openClass isOpened
                  exact again (by grind)
          next others isBracket =>
            rw [isBracket, List.length_cons] at shorter
            split
            next => rfl
            next => exact again (by grind)
          -- Each operator is two letters.
          iterate 3
            next others isOperator =>
              rw [isOperator, List.length_cons, List.length_cons] at shorter
              exact again (by grind)
          next =>
            cases isRead : readClassPart modes (modes.skip letters) with
            | none => rfl
            | some rest =>
                have behind := length_of_readClassPart isRead
                exact again (by grind)

theorem length_of_readClass {fuel height : Nat} {opening : Bool} {level : ClassLevel} {outer : List ClassLevel}
    (isRead : readClass modes fuel opening level outer letters = some (height, rest)) :
    rest.length ≤ letters.length := by
  induction fuel generalizing opening level outer letters with
  | zero => cases isRead
  | succ fuel ih =>
      have shorter := modes.length_skip_le letters
      cases opening with
      | true =>
          simp only [readClass] at isRead
          split at isRead
          next others isHyphen =>
            rw [isHyphen, List.length_cons] at shorter
            grind
          next others isBracket =>
            rw [isBracket, List.length_cons] at shorter
            grind
          next => exact Nat.le_trans (ih isRead) shorter
      | false =>
          simp only [readClass] at isRead
          split at isRead
          next others isBracket =>
            rw [isBracket, List.length_cons] at shorter
            split at isRead
            next negated behind named =>
              have := length_of_readNamedClass named
              grind
            next =>
              obtain ⟨behind, isOpened, isRead⟩ := Option.bind_eq_some_iff.1 isRead
              have := length_of_openClass isOpened
              have := ih isRead
              omega
          next others isBracket =>
            rw [isBracket, List.length_cons] at shorter
            grind
          iterate 3
            next others isOperator =>
              rw [isOperator, List.length_cons, List.length_cons] at shorter
              have := ih isRead
              omega
          next =>
            obtain ⟨behind, isPart, isRead⟩ := Option.bind_eq_some_iff.1 isRead
            have := length_of_readClassPart isPart
            have := ih isRead
            omega

/-! ## Expressions -/

theorem length_of_readName {name : List Char} (isRead : readName letters = some (name, rest)) :
    rest.length ≤ letters.length := by
  simp only [readName] at isRead
  split at isRead
  next first others behind isFront isEnd =>
    have dropped := (List.dropWhile_sublist _ : (letters.dropWhile fun letter => letter == '_' || letter == '.' ||
      letter == '[' || letter == ']' || Letter.isAlphanumeric letter).Sublist letters).length_le
    rw [isEnd, List.length_cons] at dropped
    grind
  next => cases isRead

theorem length_of_readFlags {seen : List Char} {opening : Opening}
    (isRead : readFlags seen letters = some (opening, rest)) : rest.length ≤ letters.length := by
  fun_induction readFlags seen letters with
  | case1 => cases isRead
  | _ => grind

theorem length_of_readOpening {opening : Opening} (isRead : readOpening letters = some (opening, rest)) :
    rest.length ≤ letters.length := by
  unfold readOpening at isRead
  split at isRead
  next others =>
    obtain ⟨⟨name, behind⟩, isName, isRest⟩ := Option.map_eq_some_iff.1 isRead
    have := length_of_readName isName
    grind
  next others =>
    obtain ⟨⟨name, behind⟩, isName, isRest⟩ := Option.map_eq_some_iff.1 isRead
    have := length_of_readName isName
    grind
  next => exact Nat.le_succ_of_le (length_of_readFlags isRead)
  next =>
    obtain ⟨-, rfl⟩ := Prod.mk.inj (Option.some.inj isRead)
    exact Nat.le_refl _

theorem length_dropReluctant_le (letters : List Char) : (dropReluctant letters).length ≤ letters.length := by
  fun_cases dropReluctant letters
  · exact Nat.le_succ _
  · exact Nat.le_refl _

theorem heightFrom?_congr {fuel fuel' : Nat} {progress : Progress} (enough : letters.length < fuel)
    (enough' : letters.length < fuel') : heightFrom? fuel progress letters = heightFrom? fuel' progress letters := by
  induction fuel generalizing fuel' progress letters with
  | zero => omega
  | succ fuel ih =>
      obtain ⟨fuel', rfl⟩ := Nat.exists_eq_add_one_of_ne_zero (Nat.ne_of_gt (Nat.zero_lt_of_lt enough'))
      have again {progress : Progress} {others : List Char} (less : others.length < letters.length) :
          heightFrom? fuel progress others = heightFrom? fuel' progress others :=
        ih (by omega) (by omega)
      have shorter := progress.modes.length_skip_le letters
      simp only [heightFrom?]
      split
      next => rfl
      next others isMark =>
        rw [isMark, List.length_cons] at shorter
        have := progress.modes.length_skip_le others
        cases isOpening : readOpening (progress.modes.skip others) with
        | none => rfl
        | some found =>
            obtain ⟨opening, behind⟩ := found
            have := length_of_readOpening isOpening
            cases isOpened : progress.open? opening with
            | none => simp [isOpened]
            | some progress' => simpa [isOpened] using again (by omega)
      next others isMark =>
        rw [isMark, List.length_cons] at shorter
        cases progress.leave? with
        | none => rfl
        | some progress' => exact again (by omega)
      next others isMark =>
        rw [isMark, List.length_cons] at shorter
        exact again (by omega)
      next others isMark =>
        rw [isMark, List.length_cons] at shorter
        cases isOpened : openClass progress.modes others with
        | none => rfl
        | some inside =>
            have := length_of_openClass isOpened
            simp only [Option.bind_eq_bind, Option.bind_some]
            cases isClass : readClass progress.modes (2 * inside.length + 2) true {} [] inside with
            | none => rfl
            | some found =>
                obtain ⟨height, behind⟩ := found
                have := length_of_readClass isClass
                have less : behind.length < letters.length := by omega
                exact again less
      -- The three marks of repetition are read alike.
      iterate 3
        next others isMark =>
          rw [isMark, List.length_cons] at shorter
          have := length_dropReluctant_le others
          cases progress.repeat? with
          | none => rfl
          | some progress' => exact again (by omega)
      next => rfl
      iterate 2
        next others isMark =>
          rw [isMark, List.length_cons] at shorter
          exact again (by omega)
      next others isMark =>
        rw [isMark, List.length_cons] at shorter
        rw [again (by omega)]
      next =>
        cases isRead : readItem progress.modes (progress.modes.skip letters) with
        | none => rfl
        | some found =>
            obtain ⟨item, behind⟩ := found
            have := length_of_readItem isRead
            simp only [Option.bind_eq_bind, Option.bind_some]
            rw [again (by omega)]

/-- With any count of steps above the length of the text, the same expressions are well formed. -/
theorem wellFormed_eq_any {fuel : Nat} (enough : letters.length < fuel) :
    wellFormed letters = (heightFrom? fuel {} letters).any (· ≤ heightLimit) := by
  rw [wellFormed, heightFrom?_congr (Nat.lt_succ_self _) enough]

/-! ## Plain text -/

/-- The letters that begin or end more than the place or the letter they stand for. -/
def marks : List Char :=
  ['\\', '(', ')', '|', '[', '*', '+', '?', '\x7b']

def isPlain (letter : Char) : Bool :=
  !marks.contains letter

/-- An expression without groups, so far, whose parts are at most so high. -/
structure Progress.Flat (progress : Progress) (height : Nat) : Prop where
  modes : progress.modes = {}
  outer : progress.outer = []
  complete : progress.group.complete = none
  parts : progress.group.sequence.height ≤ height

variable {progress : Progress} {height : Nat}

theorem Progress.Flat.add (flat : progress.Flat height) : (progress.add 0).Flat height where
  modes := flat.modes
  outer := flat.outer
  complete := flat.complete
  parts := Nat.max_le.2 ⟨flat.parts, Nat.zero_le _⟩

/-- A part that stands for one letter can be repeated. -/
theorem Progress.Flat.repeat? (flat : progress.Flat height) :
    ∃ repeated : Progress, (progress.add 0).repeat? = some repeated ∧ repeated.Flat (max height 1) := by
  refine ⟨_, rfl, flat.modes, flat.outer, flat.complete, ?_⟩
  exact Nat.max_le.2 ⟨Nat.le_trans flat.add.parts (Nat.le_max_left _ _), Nat.le_max_right _ _⟩

theorem Progress.Flat.total_le (flat : progress.Flat height) : progress.group.total ≤ height + 1 := by
  have := flat.parts
  rw [Group.total, flat.complete]
  simp only [Sequence.total]
  split <;> omega

theorem heightFrom?_nil (fuel : Nat) (flat : progress.Flat height) :
    heightFrom? (fuel + 1) progress [] = some progress.group.total := by
  simp [heightFrom?, flat.modes, flat.outer, Modes.skip]

theorem heightFrom?_plain {letter : Char} (fuel : Nat) (flat : progress.Flat height) (plain : isPlain letter) :
    heightFrom? (fuel + 1) progress (letter :: rest) = heightFrom? fuel (progress.add 0) rest := by
  have skipped : progress.modes.skip (letter :: rest) = letter :: rest := by simp [flat.modes, Modes.skip]
  simp only [heightFrom?, skipped]
  split
  next isNil => cases isNil
  iterate 8
    next others isMark =>
      obtain ⟨rfl, rfl⟩ := List.cons.inj isMark
      exact absurd plain (by decide)
  iterate 2
    next others isMark =>
      obtain ⟨rfl, rfl⟩ := List.cons.inj isMark
      rfl
  next others isMark =>
    obtain ⟨rfl, rfl⟩ := List.cons.inj isMark
    rw [flat.modes]
    rfl
  next =>
    have isRead : readItem progress.modes (letter :: rest) = some (.letter letter false, rest) := by
      rw [readItem]
      rintro rfl
      exact absurd plain (by decide)
    simp only [isRead, Option.bind_eq_bind, Option.bind_some]
    rw [flat.modes]
    rfl

/-- The rest of an expression may be plain text. -/
theorem heightFrom?_of_plain (flat : progress.Flat height) (plain : ∀ letter ∈ letters, isPlain letter) :
    ∃ total ≤ height + 1, heightFrom? (letters.length + 1) progress letters = some total := by
  induction letters generalizing progress with
  | nil => exact ⟨_, flat.total_le, heightFrom?_nil _ flat⟩
  | cons letter letters ih =>
      obtain ⟨total, low, isTotal⟩ := ih flat.add fun other member => plain other (List.mem_cons_of_mem _ member)
      refine ⟨total, low, ?_⟩
      rw [List.length_cons, heightFrom?_plain _ flat (plain letter List.mem_cons_self), isTotal]

/-- The last of plain letters may be repeated, and more of them may follow. -/
theorem heightFrom?_of_repeated {front : List Char} {last : Char} (flat : progress.Flat height)
    (plain : ∀ letter ∈ front ++ [last], isPlain letter) (behind : ∀ letter ∈ letters, isPlain letter) :
    ∃ total ≤ max height 1 + 1,
      heightFrom? ((front ++ last :: '+' :: letters).length + 1) progress (front ++ last :: '+' :: letters) =
        some total := by
  induction front generalizing progress with
  | nil =>
      obtain ⟨repeated, isRepeated, flat'⟩ := flat.repeat?
      obtain ⟨total, low, isTotal⟩ := heightFrom?_of_plain flat' behind
      refine ⟨total, low, ?_⟩
      have eager : dropReluctant letters = letters := by
        rw [dropReluctant.eq_2]
        rintro others rfl
        exact absurd (behind '?' List.mem_cons_self) (by decide)
      have skipped : (progress.add 0).modes.skip ('+' :: letters) = '+' :: letters := by
        simp [flat.add.modes, Modes.skip]
      rw [List.nil_append, List.length_cons, List.length_cons,
        heightFrom?_plain _ flat (plain last List.mem_cons_self), heightFrom?, skipped]
      simp only [isRepeated, Option.bind_eq_bind, Option.bind_some, eager]
      exact isTotal
  | cons letter front ih =>
      obtain ⟨total, low, isTotal⟩ := ih flat.add fun other member => plain other (List.mem_cons_of_mem _ member)
      refine ⟨total, low, ?_⟩
      rw [List.cons_append, List.length_cons, heightFrom?_plain _ flat (plain letter List.mem_cons_self), isTotal]

/-- A text in which nothing but one letter is repeated, and that at most once. -/
inductive Simple : List Char → Prop where
  | plain {text : List Char} (plain : ∀ letter ∈ text, isPlain letter) : Simple text
  | repeated {front behind : List Char} {last : Char} (plain : ∀ letter ∈ front ++ [last], isPlain letter)
      (plain' : ∀ letter ∈ behind, isPlain letter) : Simple (front ++ last :: '+' :: behind)

theorem Simple.append {ahead : List Char} (simple : Simple letters) (plain : ∀ letter ∈ ahead, isPlain letter) :
    Simple (ahead ++ letters) := by
  cases simple with
  | plain plain' => exact .plain (List.forall_mem_append.2 ⟨plain, plain'⟩)
  | repeated plain' plain'' =>
      rw [← List.append_assoc]
      refine .repeated ?_ plain''
      rw [List.append_assoc]
      exact List.forall_mem_append.2 ⟨plain, plain'⟩

theorem Simple.wellFormed (simple : Simple letters) : wellFormed letters := by
  have flat : ({} : Progress).Flat 0 := ⟨rfl, rfl, rfl, Nat.le_refl _⟩
  have bounded : ∃ total ≤ 2, heightFrom? (letters.length + 1) {} letters = some total := by
    cases simple with
    | plain plain =>
        obtain ⟨total, low, isTotal⟩ := heightFrom?_of_plain flat plain
        exact ⟨total, Nat.le_succ_of_le low, isTotal⟩
    | repeated plain plain' => exact heightFrom?_of_repeated flat plain plain'
  obtain ⟨total, low, isTotal⟩ := bounded
  rw [Pattern.wellFormed, isTotal, Option.any_some, decide_eq_true_eq]
  exact Nat.le_trans low (by decide)

end DatalogRam.Pattern
