import DatalogRam.Proofs.Lowering.Redirecting
import DatalogRam.Proofs.Query.Values

/-!
# Running code over slots

Code that was redirected reads the arguments of a subroutine in place of rows: a term has its word under the
valuation that the arguments describe, and a variable for a level asks for nothing.
-/

namespace DatalogRam.Lowering

open Machine Ram

/-- The argument for the slot of a variable. -/
def argumentOf (slots : Slots) (args : Row) (name : String) : Int64 :=
  ((slots.slot? name).bind fun slot => args[slot]?).getD 0

variable {ordinal : String → Int64} {slots : Slots} {args : Row} {state : State}

theorem slot?_lt {name : String} {slot : Nat} (found : slots.slot? name = some slot) : slot < slots.size := by
  rw [Slots.slot?, List.idxOf?, List.findIdx?_eq_some_iff_getElem] at found
  exact found.1

theorem returns_argument {index : Nat} {value : Int64} (found : args[index]? = some value) :
    Returns (evalExpr args (.argument index)) state value state := by
  rw [evalExpr, found]
  exact Returns.pure _ _

theorem argument_of_slot {name : String} {slot : Nat} (found : slots.slot? name = some slot)
    (long : slots.size ≤ args.length) : args[slot]? = some (argumentOf slots args name) := by
  have inArgs := List.getElem?_eq_getElem (Nat.lt_of_lt_of_le (slot?_lt found) long)
  rw [argumentOf, found, Option.bind_some, inArgs, Option.getD_some]

theorem argumentOf_append (slots : Slots) (args more : Row) (name : String) (long : slots.size ≤ args.length) :
    argumentOf slots (args ++ more) name = argumentOf slots args name := by
  rw [argumentOf, argumentOf]
  cases isSlot : slots.slot? name with
  | none => rfl
  | some slot =>
      rw [Option.bind_some, Option.bind_some,
        List.getElem?_append_left (Nat.lt_of_lt_of_le (slot?_lt isSlot) long)]

/-! ## The slots of a clause -/

variable {clause : Clause} {name : String}

/-- A variable of a clause has a slot unless it stands for a level. -/
theorem mem_names_ofClause (isVariable : name ∈ clauseVariables clause) (notLevel : isLevelVariable name = false) :
    name ∈ (Slots.ofClause clause).names := by
  by_cases underscore : isUnderscoreVariable name = true
  · simp [Slots.ofClause, Slots.addUnderscores, isVariable, underscore]
  · simp [Slots.ofClause, Slots.addUnderscores, Slots.addNamed, isVariable, notLevel, underscore]

/-- A variable for a level is erased. -/
theorem mem_erased_ofClause (isVariable : name ∈ clauseVariables clause) (isLevel : isLevelVariable name = true) :
    name ∈ (Slots.ofClause clause).erased := by
  simp [Slots.ofClause, Slots.addUnderscores, Slots.addNamed, isVariable, isLevel]

/-- No name begins both like a variable for a level and like one for an unnamed position. -/
theorem not_underscore_of_level (isLevel : isLevelVariable name = true) : isUnderscoreVariable name = false := by
  have level : "@level_num".toList = '@' :: "level_num".toList := by decide
  have underscore : "+underscore".toList = '+' :: "underscore".toList := by decide
  rw [isLevelVariable, beginsWith, level] at isLevel
  rw [isUnderscoreVariable, beginsWith, underscore]
  cases letters : name.toList with
  | nil => rfl
  | cons first rest =>
      rw [letters, List.isPrefixOf, Bool.and_eq_true, beq_iff_eq] at isLevel
      rw [← isLevel.1]
      rfl

theorem not_mem_names_of_level (isLevel : isLevelVariable name = true) :
    name ∉ (Slots.ofClause clause).names := by
  simp [Slots.ofClause, Slots.addUnderscores, Slots.addNamed, Slots.empty, isLevel, not_underscore_of_level isLevel]

/-! ## Terms -/

theorem slot_of_mem (member : name ∈ slots.names) :
    ∃ slot, slots.slot? name = some slot ∧ slots.sites.definition? name = some ⟨slot, 0⟩ := by
  obtain ⟨slot, isSlot⟩ := Option.isSome_iff_exists.1 (List.isSome_idxOf?.2 member)
  refine ⟨slot, isSlot, ?_⟩
  rw [List.idxOf?] at isSlot
  rw [definition?_sites, List.idxOf?, List.findIdx?_append, isSlot]
  rfl

/-- An erased variable is read in a row behind those of the slots. -/
theorem site_of_erased (isErased : name ∈ slots.erased) (noSlot : name ∉ slots.names) :
    ∃ position, position < slots.erased.length ∧
      slots.sites.definition? name = some ⟨slots.size + position, 0⟩ := by
  obtain ⟨position, isPosition⟩ := Option.isSome_iff_exists.1 (List.isSome_idxOf?.2 isErased)
  have none : slots.names.findIdx? (· == name) = none := List.idxOf?_eq_none_iff.2 noSlot
  rw [List.idxOf?] at isPosition
  refine ⟨position, (List.findIdx?_eq_some_iff_getElem.1 isPosition).1, ?_⟩
  rw [definition?_sites, List.idxOf?, List.findIdx?_append, none, isPosition, Slots.size, Nat.add_comm]
  rfl

theorem redirect_slot {ρ : Type} {slot column : Nat} (inside : slot < slots.size) :
    slots.redirect (.element slot column : ExprNode ρ) = .ok (some (.argument slot)) :=
  if_pos inside

theorem redirect_erased {ρ : Type} {position column : Nat} (inside : position < slots.erased.length) :
    slots.redirect (.element (slots.size + position) column : ExprNode ρ) = .ok (some .undefined) := by
  rw [Slots.redirect, if_neg (by omega), Nat.add_sub_cancel_left, if_pos inside]

/-- A term over variables with slots is redirected to code that has the word of the term for the arguments. -/
structure Redirects (ordinal : String → Int64) (slots : Slots) (arg : Argument) (expr redirected : Expr) : Prop where
  code : valueCode ordinal slots.sites arg = some expr
  replaced : expr.replace slots.redirect = .ok redirected
  isValue : redirected.isUndefined = false
  returns : ∀ (args : Row) (state : State), slots.size ≤ args.length →
    Returns (evalExpr args redirected) state (arg.value ordinal (argumentOf slots args)) state

theorem Redirects.redirectedCode_eq {arg : Argument} {expr redirected : Expr}
    (redirects : Redirects ordinal slots arg expr redirected) :
    redirectedCode ordinal slots arg = some redirected := by
  rw [redirectedCode, redirects.code]
  exact congrArg Except.toOption redirects.replaced

mutual

theorem exists_redirects :
    ∀ {arg : Argument}, arg.isTerm = true → (∀ name ∈ arg.variables, name ∈ slots.names) →
      ∃ expr redirected, Redirects ordinal slots arg expr redirected
  | .var name, _, slotted => by
      obtain ⟨slot, isSlot, isSite⟩ := slot_of_mem (slotted name (by simp [Argument.variables]))
      refine ⟨.element slot 0, .argument slot, ?_, ?_, rfl, fun args state long => ?_⟩
      · rw [valueCode, isSite]
        rfl
      · simp only [Expr.replace, Expr.toNode, redirect_slot (slot?_lt isSlot)]
        rfl
      · exact returns_argument (argument_of_slot isSlot long)
  | .constant value, _, _ => by
      refine ⟨constantCode ordinal value, constantCode ordinal value, rfl, ?_, ?_, fun args state _ =>
        returns_constant value⟩
      · cases value <;> rfl
      · cases value <;> rfl
  | .operator op terms, isTerm, slotted => by
      simp only [Argument.isTerm, Bool.and_eq_true] at isTerm
      obtain ⟨exprs, redirected, codes, replaced, returns⟩ := @exists_redirectsAll terms isTerm.2 slotted
      refine ⟨.operator op exprs, .operator op redirected, ?_, ?_, rfl, fun args state long => ?_⟩
      · rw [valueCode, codes]
        rfl
      · simp only [Expr.replace, Slots.redirect, replaced]
        rfl
      · rw [Argument.value]
        refine returns_operator (returns args state long) ?_
        rw [length_values]
        exact isTerm.1
  | .unnamed, isTerm, _ => by simp [Argument.isTerm] at isTerm
  | .external _ _, isTerm, _ => by simp [Argument.isTerm] at isTerm
  | .aggregate _ _ _, isTerm, _ => by simp [Argument.isTerm] at isTerm
  | .record _, isTerm, _ => by simp [Argument.isTerm] at isTerm
  | .counter, isTerm, _ => by simp [Argument.isTerm] at isTerm

theorem exists_redirectsAll :
    ∀ {terms : List Argument}, Argument.areTerms terms = true →
      (∀ name ∈ Argument.variablesOfAll terms, name ∈ slots.names) →
      ∃ exprs redirected, valueCodes ordinal slots.sites terms = some exprs ∧
        Expr.replaceAll slots.redirect exprs = .ok redirected ∧
        ∀ (args : Row) (state : State), slots.size ≤ args.length →
          Returns (evalExprs args redirected) state (Argument.values ordinal (argumentOf slots args) terms) state
  | [], _, _ => ⟨[], [], rfl, rfl, fun args state _ => Returns.pure _ _⟩
  | term :: terms, areTerms, slotted => by
      simp only [Argument.areTerms, Bool.and_eq_true] at areTerms
      obtain ⟨expr, first, redirects⟩ := @exists_redirects term areTerms.1 fun name member =>
        slotted name (List.mem_append_left _ member)
      obtain ⟨exprs, others, codes, replaced, returns⟩ := @exists_redirectsAll terms areTerms.2 fun name member =>
        slotted name (List.mem_append_right _ member)
      refine ⟨expr :: exprs, first :: others, ?_, ?_, fun args state long => ?_⟩
      · rw [valueCodes, redirects.code, codes]
        rfl
      · rw [Expr.replaceAll, redirects.replaced, replaced]
        rfl
      · rw [evalExprs, Argument.values]
        exact (redirects.returns args state long).bind ((returns args state long).bind (Returns.pure _ _))

end

/-! ## Patterns -/

end DatalogRam.Lowering

namespace DatalogRam

open Lowering

/-- A term without variables for levels. -/
def Argument.isLevelFree (arg : Argument) : Bool :=
  arg.isTerm && arg.variables.all fun name => !isLevelVariable name

/-- What an atom may ask for: a variable, nothing, or a term without variables for levels. -/
def Argument.asks : Argument → Bool
  | .var _ => true
  | .unnamed => true
  | arg => arg.isLevelFree

/-- A variable for a level asks for nothing. -/
def Argument.erased : Argument → Argument
  | .var name => if isLevelVariable name then .unnamed else .var name
  | arg => arg

end DatalogRam

namespace DatalogRam.Lowering

open Machine Ram

variable {ordinal : String → Int64} {clause : Clause} {args : Row} {state : State}

theorem slotted_of_isLevelFree {arg : Argument} (within : ∀ name ∈ arg.variables, name ∈ clauseVariables clause)
    (levelFree : arg.isLevelFree = true) :
    arg.isTerm = true ∧ ∀ name ∈ arg.variables, name ∈ (Slots.ofClause clause).names := by
  simp only [Argument.isLevelFree, Bool.and_eq_true, List.all_eq_true, Bool.not_eq_true'] at levelFree
  exact ⟨levelFree.1, fun name member => mem_names_ofClause (within name member) (levelFree.2 name member)⟩

/-- An argument that an atom asks for is redirected to a wildcard or to code for its word. -/
structure Asks (ordinal : String → Int64) (clause : Clause) (arg : Argument) (expr redirected : Expr) : Prop where
  code : valueCode ordinal (Slots.ofClause clause).sites arg = some expr
  replaced : expr.replace (Slots.ofClause clause).redirect = .ok redirected
  pattern : ∀ (args : Row) (state : State), (Slots.ofClause clause).size ≤ args.length →
    Returns (if redirected.isUndefined then pure none else some <$> evalExpr args redirected) state
      (if arg.erased = .unnamed then none
        else some (arg.erased.value ordinal (argumentOf (Slots.ofClause clause) args))) state

theorem exists_asks {arg : Argument} (within : ∀ name ∈ arg.variables, name ∈ clauseVariables clause)
    (asks : arg.asks = true) : ∃ expr redirected, Asks ordinal clause arg expr redirected := by
  -- Unless the argument is a wildcard or stands for a level, it is a term over slots.
  have computed (levelFree : arg.isLevelFree = true) (same : arg.erased = arg) :
      ∃ expr redirected, Asks ordinal clause arg expr redirected := by
    obtain ⟨isTerm, slotted⟩ := slotted_of_isLevelFree within levelFree
    obtain ⟨expr, redirected, redirects⟩ := @exists_redirects ordinal _ arg isTerm slotted
    refine ⟨expr, redirected, redirects.code, redirects.replaced, fun args state long => ?_⟩
    have named : arg ≠ .unnamed := by
      rintro rfl
      simp [Argument.isTerm] at isTerm
    rw [redirects.isValue, same, if_neg named, if_neg Bool.false_ne_true, ← bind_pure_comp]
    exact (redirects.returns args state long).bind (Returns.pure _ _)
  cases arg with
  | unnamed =>
      refine ⟨.undefined, .undefined, rfl, rfl, fun args state _ => ?_⟩
      rw [if_pos (show Argument.unnamed.erased = .unnamed from rfl)]
      exact Returns.pure none state
  | var name =>
      cases isLevel : isLevelVariable name with
      | false =>
          refine computed ?_ (by simp [Argument.erased, isLevel])
          simp [Argument.isLevelFree, Argument.isTerm, Argument.variables, isLevel]
      | true =>
          obtain ⟨position, inside, isSite⟩ := site_of_erased
            (mem_erased_ofClause (within name (by simp [Argument.variables])) isLevel) (not_mem_names_of_level isLevel)
          refine ⟨.element ((Slots.ofClause clause).size + position) 0, .undefined, ?_, ?_, fun args state _ => ?_⟩
          · rw [valueCode, isSite]
            rfl
          · simp only [Expr.replace, Expr.toNode, redirect_erased inside]
            rfl
          · rw [Argument.erased, if_pos isLevel, if_pos rfl]
            exact Returns.pure none state
  | constant | operator | external | aggregate | record | counter => exact computed asks rfl

theorem returns_pattern_cons {expr : Expr} {exprs : List Expr} {wanted : Option Int64}
    {rest : List (Option Int64)} {middle final : State}
    (first : Returns (if expr.isUndefined then pure none else some <$> evalExpr args expr) state wanted middle)
    (others : Returns (evalPattern args exprs) middle rest final) :
    Returns (evalPattern args (expr :: exprs)) state (wanted :: rest) final := by
  rw [evalPattern]
  split at first
  · next isUndefined =>
      rw [if_pos isUndefined]
      exact first.bind (others.bind (Returns.pure _ _))
  · next isValue =>
      rw [if_neg isValue]
      exact first.bind (others.bind (Returns.pure _ _))

/-- The arguments of an atom are redirected to a pattern for their words, with wildcards behind it. -/
theorem exists_pattern {terms : List Argument} (auxiliary : Nat)
    (within : ∀ name ∈ Argument.variablesOfAll terms, name ∈ clauseVariables clause)
    (ask : ∀ arg ∈ terms, arg.asks = true) :
    ∃ exprs redirected, valueCodes ordinal (Slots.ofClause clause).sites terms = some exprs ∧
      Expr.replaceAll (Slots.ofClause clause).redirect (exprs ++ List.replicate auxiliary .undefined) =
        .ok redirected ∧
      ∀ (args : Row) (state : State), (Slots.ofClause clause).size ≤ args.length →
        Returns (evalPattern args redirected) state
          (patternOf ordinal (argumentOf (Slots.ofClause clause) args) (terms.map Argument.erased) auxiliary) state := by
  induction terms with
  | nil =>
      refine ⟨[], List.replicate auxiliary .undefined, rfl, ?_, fun args state _ => returns_wildcards auxiliary⟩
      rw [List.nil_append]
      induction auxiliary with
      | zero => rfl
      | succ count ih =>
          rw [List.replicate_succ, Expr.replaceAll, ih]
          rfl
  | cons term terms ih =>
      obtain ⟨expr, first, asks⟩ := @exists_asks ordinal clause term
        (fun name member => within name (List.mem_append_left _ member)) (ask term List.mem_cons_self)
      obtain ⟨exprs, others, codes, replaced, pattern⟩ := ih
        (fun name member => within name (List.mem_append_right _ member))
        fun arg member => ask arg (List.mem_cons_of_mem _ member)
      refine ⟨expr :: exprs, first :: others, ?_, ?_, fun args state long => ?_⟩
      · rw [valueCodes, asks.code, codes]
        rfl
      · rw [List.cons_append, Expr.replaceAll, asks.replaced, replaced]
        rfl
      · exact returns_pattern_cons (asks.pattern args state long) (pattern args state long)

end DatalogRam.Lowering
