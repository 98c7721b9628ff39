import DatalogRam.Proofs.Analysis.Recursion

/-!
# Clauses without aggregates

The arguments of clauses in three classes: direct ones are read off a row, flat ones are variables and constants,
and terms may also apply arithmetic that never fails. A simple clause scans direct arguments and computes terms,
and a flat one only compares and copies. Neither has aggregates, so it reads just its atoms.
-/

namespace DatalogRam

/-- Variables, constants and positions that are not looked at. -/
def Argument.isDirect : Argument → Bool
  | .var _ => true
  | .unnamed => true
  | .constant _ => true
  | _ => false

/-- Variables and constants. -/
def Argument.isFlat : Argument → Bool
  | .var _ => true
  | .constant _ => true
  | _ => false

/-- Whether a functor has a value for any so many words, whatever the symbols are. -/
def Operator.isTotalOn : Operator → Nat → Bool
  | .add, count => count == 2
  | .sub, count => count == 2
  | .mul, count => count == 2
  | .neg, count => count == 1
  | .max, count => decide (0 < count)
  | .min, count => decide (0 < count)
  | _, _ => false

mutual

/-- Variables, constants and functors on terms that have a value whatever the words are. -/
def Argument.isTerm : Argument → Bool
  | .var _ => true
  | .constant _ => true
  | .operator op args => op.isTotalOn args.length && Argument.areTerms args
  | _ => false

def Argument.areTerms : List Argument → Bool
  | [] => true
  | arg :: args => arg.isTerm && Argument.areTerms args

end

theorem Argument.areTerms_iff {args : List Argument} :
    Argument.areTerms args = true ↔ ∀ arg ∈ args, arg.isTerm = true := by
  induction args with
  | nil => simp [Argument.areTerms]
  | cons arg args ih => simp [Argument.areTerms, ih]

theorem Argument.isTerm_of_isFlat {arg : Argument} (flat : arg.isFlat = true) : arg.isTerm = true := by
  cases arg <;> simp_all [Argument.isFlat, Argument.isTerm]

theorem Argument.isDirect_cases {arg : Argument} (direct : arg.isDirect = true) :
    (∃ name, arg = .var name) ∨ arg = .unnamed ∨ ∃ value, arg = .constant value := by
  cases arg <;> simp_all [Argument.isDirect]

/-- A clause that scans direct arguments and computes terms. -/
structure Clause.Simple (clause : Clause) : Prop where
  head : ∀ arg ∈ clause.head.args, arg.isTerm = true
  positive : ∀ atom ∈ clause.positiveAtoms, ∀ arg ∈ atom.args, arg.isDirect = true
  negated : ∀ atom ∈ clause.negatedAtoms, ∀ arg ∈ atom.args, arg = .unnamed ∨ arg.isTerm = true
  compared : ∀ op left right, .comparison op left right ∈ clause.body →
    left.isTerm = true ∧ right.isTerm = true

/-- A clause that has variables, constants and wildcards only, the latter in its body atoms. -/
structure Clause.Flat (clause : Clause) : Prop where
  head : ∀ arg ∈ clause.head.args, arg.isFlat = true
  positive : ∀ atom ∈ clause.positiveAtoms, ∀ arg ∈ atom.args, arg.isDirect = true
  negated : ∀ atom ∈ clause.negatedAtoms, ∀ arg ∈ atom.args, arg.isDirect = true
  compared : ∀ op left right, .comparison op left right ∈ clause.body →
    left.isFlat = true ∧ right.isFlat = true

theorem Clause.Flat.simple {clause : Clause} (flat : clause.Flat) : clause.Simple where
  head := fun arg member => Argument.isTerm_of_isFlat (flat.head arg member)
  positive := flat.positive
  negated := fun atom member arg isArg => by
    rcases Argument.isDirect_cases (flat.negated atom member arg isArg) with
      ⟨name, rfl⟩ | rfl | ⟨value, rfl⟩
    · exact .inr rfl
    · exact .inl rfl
    · exact .inr rfl
  compared := fun op left right member =>
    ⟨Argument.isTerm_of_isFlat (flat.compared op left right member).1,
      Argument.isTerm_of_isFlat (flat.compared op left right member).2⟩

mutual

theorem Argument.reads_of_isTerm : ∀ {arg : Argument}, arg.isTerm = true → arg.reads = []
  | .var _, _ => rfl
  | .constant _, _ => rfl
  | .operator _ args, term => by
      simp only [Argument.isTerm, Bool.and_eq_true] at term
      rw [Argument.reads, Argument.readsOfAll_of_areTerms term.2]
  | .unnamed, _ => rfl
  | .external _ _, term => by simp [Argument.isTerm] at term
  | .aggregate _ _ _, term => by simp [Argument.isTerm] at term
  | .record _, term => by simp [Argument.isTerm] at term
  | .counter, _ => rfl

theorem Argument.readsOfAll_of_areTerms :
    ∀ {args : List Argument}, Argument.areTerms args = true → Argument.readsOfAll args = []
  | [], _ => rfl
  | arg :: args, terms => by
      simp only [Argument.areTerms, Bool.and_eq_true] at terms
      rw [Argument.readsOfAll, Argument.reads_of_isTerm terms.1, Argument.readsOfAll_of_areTerms terms.2,
        List.nil_append]

end

theorem Argument.readsOfAll_eq_nil {args : List Argument}
    (plain : ∀ arg ∈ args, arg = .unnamed ∨ arg.isTerm = true) : Argument.readsOfAll args = [] := by
  induction args with
  | nil => rfl
  | cons arg args ih =>
      have first : arg.reads = [] := by
        rcases plain arg List.mem_cons_self with rfl | term
        · rfl
        · exact Argument.reads_of_isTerm term
      rw [Argument.readsOfAll, first, ih fun other member => plain other (List.mem_cons_of_mem _ member),
        List.nil_append]

theorem Argument.isDirect_plain {arg : Argument} (direct : arg.isDirect = true) :
    arg = .unnamed ∨ arg.isTerm = true := by
  rcases Argument.isDirect_cases direct with ⟨name, rfl⟩ | rfl | ⟨value, rfl⟩
  · exact .inr rfl
  · exact .inl rfl
  · exact .inr rfl

/-- A simple clause reads the relations of its body atoms and no others. -/
theorem Clause.Simple.mem_reads_iff {clause : Clause} (simple : clause.Simple) {name : Name} :
    name ∈ clause.reads ↔
      (∃ atom ∈ clause.positiveAtoms, atom.relation = name) ∨
        ∃ atom ∈ clause.negatedAtoms, atom.relation = name := by
  constructor
  · intro reads
    obtain ⟨literal, member, isRead⟩ := Literal.mem_readsOfAll.1 reads
    cases literal with
    | positive relation args =>
        have isAtom : (⟨relation, args⟩ : Atom) ∈ clause.positiveAtoms :=
          Clause.mem_positiveAtoms.2 member
        have none := Argument.readsOfAll_eq_nil fun arg isArg =>
          Argument.isDirect_plain (simple.positive _ isAtom arg isArg)
        rw [Literal.reads, none, List.mem_singleton] at isRead
        exact .inl ⟨_, isAtom, isRead.symm⟩
    | negative relation args =>
        have isAtom : (⟨relation, args⟩ : Atom) ∈ clause.negatedAtoms :=
          Clause.mem_negatedAtoms.2 member
        have none := Argument.readsOfAll_eq_nil (simple.negated _ isAtom)
        rw [Literal.reads, none, List.mem_singleton] at isRead
        exact .inr ⟨_, isAtom, isRead.symm⟩
    | comparison op left right =>
        obtain ⟨leftTerm, rightTerm⟩ := simple.compared op left right member
        rw [Literal.reads, Argument.reads_of_isTerm leftTerm, Argument.reads_of_isTerm rightTerm] at isRead
        simp at isRead
    | truth value => simp [Literal.reads] at isRead
  · rintro (⟨atom, member, rfl⟩ | ⟨atom, member, rfl⟩)
    · exact Clause.reads_of_positive member
    · exact Clause.reads_of_negated member

/-- No clause negates a relation of its own component. -/
def Program.Stratified (program : Program) : Prop :=
  ∀ clause ∈ program.clauses, ∀ atom ∈ clause.negatedAtoms,
    ¬program.SameComponent clause.head.relation atom.relation

end DatalogRam
