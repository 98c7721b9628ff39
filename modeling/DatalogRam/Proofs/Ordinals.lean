import DatalogRam.Proofs.Lowering.Programs
import DatalogRam.Proofs.Machine.History
import DatalogRam.Ram.Text

/-!
# Ordinals from lowering to execution

Lowering puts the ordinal of a text constant into the code, and a machine starts with the symbols of the program that
it runs. Runs and calls only add symbols, also those that end early. So whatever was done with a machine, the ordinals
in the code of its program are decoded to the texts that they were made from.

What ordinals are in the code cannot be seen by looking at words. The code of a program is therefore taken as a
function of the ordinals of texts: a text is in the code if the code changes with its ordinal.
-/

namespace DatalogRam

namespace Machine

open Ram

/-! ## Requests -/

variable {program : Ram.Program}

theorem permits_all : ∀ operation : Op, Permits (fun _ => True) operation
  | .scan _ _ nested => permits_all nested
  | .filter _ nested => permits_all nested
  | .aggregate _ _ _ _ _ nested => permits_all nested
  | .insert _ _ => fun _ => trivial
  | .answer _ => trivial

mutual

/-- Any statement is allowed to make some changes. -/
theorem allows_all : ∀ statement : Stmt, Allows (fun _ => True) statement
  | .sequence statements => allAllow_all statements
  | .query operation => permits_all operation
  | .loop body => allows_all body
  | .exit _ => trivial
  | .clear _ => trivial
  | .swap _ _ => trivial
  | .merge _ _ => trivial
  | .debug _ statement => allows_all statement

theorem allAllow_all : ∀ statements : List Stmt, AllAllow (fun _ => True) statements
  | [] => trivial
  | statement :: statements => ⟨allows_all statement, allAllow_all statements⟩

end

/-- Code after which every symbol is at its place, also if it ends early. -/
def KeepsSymbols {α : Type} (code : Exec α) : Prop :=
  ∀ state, (code.run.run state).2.symbols.Extends state.symbols

namespace KeepsSymbols

variable {α β : Type}

theorem of_same {code : Exec α} (same : ∀ state, (code.run.run state).2.symbols = state.symbols) : KeepsSymbols code :=
  fun state => same state ▸ Symbols.Extends.refl _

theorem bind {code : Exec α} {next : α → Exec β} (first : KeepsSymbols code) (second : ∀ a, KeepsSymbols (next a)) :
    KeepsSymbols (code >>= next) := by
  intro state
  have before := first state
  rw [run_bind]
  generalize code.run.run state = ran at before ⊢
  obtain ⟨result, middle⟩ := ran
  cases result with
  | ok a => exact (second a middle).trans before
  | error halt => exact before

theorem runStmt (rounds : Nat) (args : Row) (statement : Stmt) : KeepsSymbols (runStmt rounds args statement) := by
  intro state
  obtain ⟨_, _, _, extends', _⟩ := @Logs.runStmt args _ rounds statement (allows_all statement) state []
  exact extends'

theorem runMain (program : Ram.Program) (rounds : Nat) : KeepsSymbols (runMain program rounds) := by
  refine (of_same fun _ => rfl).bind fun _ => ?_
  exact (runStmt rounds [] program.main.tree).bind fun _ => of_same fun _ => rfl

theorem callSubroutine (program : Ram.Program) (rounds : Nat) (name : String) (args : Row) :
    KeepsSymbols (callSubroutine program rounds name args) := by
  rw [Machine.callSubroutine]
  split
  · exact of_same fun _ => rfl
  · split
    · refine (of_same fun _ => rfl).bind fun _ => ?_
      refine (runStmt rounds args _).bind fun flow => ?_
      cases flow <;> exact of_same fun _ => rfl
    · exact of_same fun _ => rfl

end KeepsSymbols

/-- What a machine is asked to do. Every loop may make a number of rounds. -/
inductive Request where
  | run (rounds : Nat)
  | call (rounds : Nat) (name : String) (args : Row)

/-- The state after a request, also if it failed. -/
def Request.perform (program : Ram.Program) (state : State) : Request → State
  | run rounds => ((runMain program rounds).run.run state).2
  | call rounds name args => ((callSubroutine program rounds name args).run.run state).2

/-- The state after requests, one after another. -/
def State.after (program : Ram.Program) (state : State) (requests : List Request) : State :=
  requests.foldl (Request.perform program) state

theorem Request.symbols_perform (program : Ram.Program) (state : State) (request : Request) :
    (request.perform program state).symbols.Extends state.symbols := by
  cases request with
  | run rounds => exact KeepsSymbols.runMain program rounds state
  | call rounds name args => exact KeepsSymbols.callSubroutine program rounds name args state

/-- No history of requests moves a symbol. -/
theorem State.symbols_after (program : Ram.Program) (state : State) (requests : List Request) :
    (state.after program requests).symbols.Extends state.symbols := by
  induction requests generalizing state with
  | nil => exact Symbols.Extends.refl _
  | cons request requests ih =>
      exact (ih (request.perform program state)).trans (request.symbols_perform program state)

end Machine

namespace Lowering

open Ram

/-! ## Ordinals in code -/

/-- The main statement of a program as a function of the ordinals of texts. -/
def mainCode (plan : Plan) (ordinal : String → Int64) : Option Stmt :=
  match plan.strategy with
  | .seminaive => evaluationCode ordinal plan
  | .provenance => do return .sequence [← evaluationCode ordinal plan, ← infosCode ordinal plan]

/-- The two subroutines of a rule as functions of the ordinals of texts. -/
def subroutineCodes (plan : Plan) (clause : Clause) : List ((String → Int64) → Option Stmt) :=
  [fun ordinal => explanationCode ordinal plan clause (Slots.ofClause clause),
    fun ordinal => decisionCode ordinal plan clause (Slots.ofClause clause)]

/-- A statement that code gives for the ordinals of a table has the ordinal of `text` in it: with another word in its
place the code would not give this statement. -/
def Embeds (code : (String → Int64) → Option Stmt) (symbols : Symbols) (statement : Stmt) (text : String) : Prop :=
  ∃ word, code (Function.update symbols.ordinal text word) ≠ some statement

/-- A statement was written with a table, and a later table decodes every ordinal in it to the text of the ordinal. -/
structure StaysDecoded (code : (String → Int64) → Option Stmt) (symbols later : Symbols) (statement : Stmt) : Prop where
  written : code symbols.ordinal = some statement
  decoded : ∀ text, Embeds code symbols statement text → later.decode? (symbols.ordinal text) = some text

variable {code : (String → Int64) → Option Stmt} {symbols later : Symbols} {statement : Stmt} {text : String}

/-- A table agrees with its ordinals also if a text that it does not have gets another one. -/
theorem agrees_update (absent : symbols.lookup? text = none) (word : Int64) :
    symbols.Agrees (Function.update symbols.ordinal text word) := by
  intro other index found
  have different : other ≠ text := by
    rintro rfl
    rw [absent] at found
    cases found
  rw [Function.update_of_ne different]
  exact symbols.agrees_ordinal other index found

/-- Code that does not depend on unknown texts embeds only ordinals of known ones. -/
theorem interned_of_embeds (written : ∀ ordinal, symbols.Agrees ordinal → code ordinal = some statement)
    (embeds : Embeds code symbols statement text) : ∃ index, symbols.lookup? text = some index := by
  obtain ⟨word, different⟩ := embeds
  cases found : symbols.lookup? text with
  | some index => exact ⟨index, rfl⟩
  | none => exact absurd (written _ (agrees_update found word)) different

/-- What a table decodes, every later table decodes in the same way. -/
theorem staysDecoded_of_extends (fits : symbols.size ≤ 2 ^ 63) (grows : later.Extends symbols)
    (written : ∀ ordinal, symbols.Agrees ordinal → code ordinal = some statement) :
    StaysDecoded code symbols later statement where
  written := written _ symbols.agrees_ordinal
  decoded := by
    intro text embeds
    obtain ⟨index, found⟩ := interned_of_embeds written embeds
    have inside : index < symbols.size := (Array.getElem?_eq_some_iff.1 (Symbols.lookup?_eq_some_iff.1 found)).1
    exact Symbols.decode?_of_extends grows (Symbols.decode?_ordinal found (Nat.lt_of_lt_of_le inside fits))

variable {program : Program} {strategy : Strategy} {debugInfo : Bool} {compiled : Ram.Program}

/-- The main statement of a lowered program, whatever ordinals texts have that the program does not know. -/
theorem mainCode_of_lowered (lowered : (lowerProgram program strategy debugInfo).result = .ok compiled) :
    ∃ plan, Plan.of program strategy debugInfo = .ok plan ∧
      ∀ ordinal, compiled.symbols.Agrees ordinal → mainCode plan ordinal = some compiled.main.tree := by
  cases strategy with
  | seminaive =>
      obtain ⟨plan, planned, _⟩ := evaluationCode_of_lowered lowered (Symbols.agrees_ordinal _)
      refine ⟨plan, planned, fun ordinal agrees => ?_⟩
      obtain ⟨other, alsoPlanned, code⟩ := evaluationCode_of_lowered lowered agrees
      cases planned.symm.trans alsoPlanned
      simp only [mainCode, (scheduled_of planned).2.2]
      exact code
  | provenance =>
      obtain ⟨plan, evaluation, infos, planned, codes, main⟩ := codes_of_agreeing lowered
      refine ⟨plan, planned, fun ordinal agrees => ?_⟩
      obtain ⟨isEvaluation, areInfos⟩ := codes ordinal agrees
      simp only [mainCode, (scheduled_of planned).2.2, isEvaluation, areInfos, main]
      rfl

/-- The subroutines of a lowered program, whatever ordinals texts have that the program does not know. -/
theorem subroutineCodes_of_lowered {plan : Plan} (planned : Plan.of program strategy debugInfo = .ok plan)
    (lowered : (lowerProgram program strategy debugInfo).result = .ok compiled) {name : String}
    {subroutine : Subroutine} (found : compiled.subroutine? name = some subroutine) :
    ∃ clause ∈ program.clauses, ∃ code ∈ subroutineCodes plan clause,
      ∀ ordinal, compiled.symbols.Agrees ordinal → code ordinal = some subroutine.body.tree := by
  obtain ⟨other, clause, alsoPlanned, _, isClause, _, codes⟩ := subroutines_of_agreeing lowered found
  cases planned.symm.trans alsoPlanned
  refine ⟨clause, isClause, ?_⟩
  rcases codes with derives | decides
  · exact ⟨_, List.mem_cons_self, derives⟩
  · exact ⟨_, List.mem_cons_of_mem _ List.mem_cons_self, decides⟩

end Lowering

open Lowering Machine Ram

/-- How a table numbers the texts of a sequence of calls. -/
structure Numbers (calls : List String) : Prop where
  dense : (Symbols.ofList calls).toList = calls.eraseDups
  encoded : ∀ before text after, calls = before ++ text :: after →
    ((Symbols.ofList before).encode text).1 = Int64.ofNat (calls.eraseDups.idxOf text)
  decoded : ∀ before text after, calls = before ++ text :: after →
    ((Symbols.ofList before).encode text).2.decode? ((Symbols.ofList before).encode text).1 = some text
  inverse : ∀ text ordinal, ((Symbols.ofList calls).lookup? text).map Int64.ofNat = some ordinal ↔
    (Symbols.ofList calls).decode? ordinal = some text
  lasting : ∀ before after, calls = before ++ after → (Symbols.ofList calls).Extends (Symbols.ofList before)

/-- The texts of calls are numbered if there are not more than ordinals. -/
theorem numbers_of_fits {calls : List String} (fits : (Symbols.ofList calls).size ≤ 2 ^ 63) : Numbers calls := by
  constructor
  case dense => exact Symbols.toList_ofList calls
  case encoded =>
    rintro before text after rfl
    obtain ⟨index, found, isOrdinal⟩ := (Symbols.ofList before).lookup?_encode text
    have later := Symbols.ofList_extends (before ++ [text]) after
    rw [List.append_assoc, List.singleton_append] at later
    rw [← Symbols.ofList_concat] at found
    rw [isOrdinal, Symbols.lookup?_eq_idxOf (later text index found), Symbols.toList_ofList]
  case decoded =>
    rintro before text after rfl
    obtain ⟨index, found, isOrdinal⟩ := (Symbols.ofList before).lookup?_encode text
    have later := Symbols.ofList_extends (before ++ [text]) after
    rw [List.append_assoc, List.singleton_append] at later
    have fewer : ((Symbols.ofList before).encode text).2.size ≤ 2 ^ 63 := by
      have shorter := (Symbols.prefix_of_extends later).length_le
      rw [← Symbols.ofList_concat]
      exact Nat.le_trans shorter fits
    rw [isOrdinal]
    exact (Symbols.lookup?_iff_decode? fewer).1 (by rw [found]; rfl)
  case inverse => exact fun text ordinal => Symbols.lookup?_iff_decode? fits
  case lasting =>
    rintro before after rfl
    exact Symbols.ofList_extends before after

variable {program : Program} {strategy : Strategy} {debugInfo : Bool} {compiled : Ram.Program} {calls : List String}

/-- A table numbers the texts of its calls once and for all. After whatever requests, the table of a machine begins with
the one of its program, so it decodes all ordinals in the main statement and in the subroutines. An ordinal is a word
that is not negative: a table has no room for more than `2 ^ 63` texts. -/
theorem ordinals_stable (fits : (Symbols.ofList calls).size ≤ 2 ^ 63)
    (lowered : (lowerProgram program strategy debugInfo).result = .ok compiled)
    (few : compiled.symbols.size ≤ 2 ^ 63) (store : Store) (requests : List Request) :
    Numbers calls ∧
      compiled.symbols.toList <+: ((State.start compiled store).after compiled requests).symbols.toList ∧
      ∃ plan, Plan.of program strategy debugInfo = .ok plan ∧
        StaysDecoded (mainCode plan) compiled.symbols
          ((State.start compiled store).after compiled requests).symbols compiled.main.tree ∧
        ∀ name subroutine, compiled.subroutine? name = some subroutine →
          ∃ clause ∈ program.clauses, ∃ code ∈ subroutineCodes plan clause,
            StaysDecoded code compiled.symbols ((State.start compiled store).after compiled requests).symbols
              subroutine.body.tree := by
  have grows := State.symbols_after compiled (.start compiled store) requests
  obtain ⟨plan, planned, main⟩ := mainCode_of_lowered lowered
  refine ⟨numbers_of_fits fits, Symbols.prefix_of_extends grows, plan, planned, ?_, fun name subroutine found => ?_⟩
  · exact staysDecoded_of_extends few grows main
  · obtain ⟨clause, isClause, code, isCode, written⟩ := subroutineCodes_of_lowered planned lowered found
    exact ⟨clause, isClause, code, isCode, staysDecoded_of_extends few grows written⟩

/-- Whoever greets is answered louder: the head of the rule interns a text. -/
def replies : Program where
  types := []
  relations :=
    [⟨⟨["greeting"]⟩, [⟨"a", ⟨["symbol"]⟩⟩], .standard, []⟩,
      ⟨⟨["reply"]⟩, [⟨"a", ⟨["symbol"]⟩⟩], .standard, [.output]⟩]
  clauses :=
    [⟨⟨⟨["greeting"]⟩, [.constant (.string "hello")]⟩, []⟩,
      ⟨⟨⟨["reply"]⟩, [.operator .cat [.var "x", .constant (.string "!")]]⟩, [.positive ⟨["greeting"]⟩ [.var "x"]]⟩]

/-- `replies`, lowered for provenance. -/
def recordedReplies : Ram.Program :=
  ((lowerProgram replies .provenance false).result.toOption).getD ⟨.empty, [], ⟨0, .sequence []⟩, [], .empty⟩

/-- A run, an explanation, a call that fails, and another run. -/
def repliesAsked : List Request :=
  [.run 1, .call 0 "reply_1_subproof" [1, 2, 1], .call 0 "reply_1_subproof" [1], .run 1]

theorem lowered_replies : (lowerProgram replies .provenance false).result = .ok recordedReplies := by
  obtain ⟨compiled, lowered⟩ := exists_result (show (lowerProgram replies .provenance false).result.isOk by
    decide +kernel)
  rw [recordedReplies, lowered]
  rfl

theorem ordinals_stable_replies :
    (lowerProgram replies .provenance false).result = .ok recordedReplies ∧
      Numbers ["b", "a", "b", "c"] ∧
      ((State.start recordedReplies .empty).after recordedReplies repliesAsked).symbols.toList =
        recordedReplies.symbols.toList ++ ["hello!"] ∧
      ((State.start recordedReplies .empty).after recordedReplies repliesAsked).symbols.decode?
        (recordedReplies.symbols.ordinal "!") = some "!" := by
  obtain ⟨numbers, _, plan, planned, main, _⟩ := @ordinals_stable replies .provenance false recordedReplies
    ["b", "a", "b", "c"] (by decide +kernel) lowered_replies (by decide +kernel) .empty repliesAsked
  have embeds : ((Plan.of replies .provenance false).toOption.bind fun plan =>
      mainCode plan (Function.update recordedReplies.symbols.ordinal "!" 7)).map (Stmt.lines 0) ≠
        some (recordedReplies.main.tree.lines 0) := by
    decide +kernel
  refine ⟨lowered_replies, numbers, by decide +kernel, main.decoded "!" ⟨7, fun same => embeds ?_⟩⟩
  rw [planned]
  exact congrArg (Option.map (Stmt.lines 0)) same

end DatalogRam
