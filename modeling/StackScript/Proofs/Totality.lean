import Mathlib.Logic.Relation
import StackScript.Proofs.Observing.Agreement

/-!
# Compilation comes to an end

The compiler under observation is never cut off, neither in a loop nor at some depth, and gives what
the compiler gives. The depth that is enough does not depend on the text. All operations on the way
are applied where they are defined.
-/

namespace StackScript

variable {observations : List Observation} {procedure : Procedure}

open Compile (maxNesting)

/-- What a run gives for a text, unless it is cut off. -/
def Run.outcome (run : Run Function) : Option (Except CompileError Function) :=
  run.result.map fun
    | .ok script _ => .ok script
    | .error error _ => .error error

theorem outcome_observe {text : String} {rounds depth : Nat}
    (enough : (tokens text).length < rounds) (deep : callDepth ≤ depth) :
    (observe rounds depth text).outcome = some (compile text) := by
  rw [Run.outcome, (observe_shows enough deep).result_eq]
  rfl

/-! ## Recursion -/

namespace Procedure

variable {caller inner : Procedure}

/-- Whether a procedure calls another one at the same level in the run for some text. -/
def Calls (caller inner : Procedure) : Prop :=
  ∃ text entry, .called caller inner entry ∈
    (observe ((tokens text).length + 1) callDepth text).observations

theorem rank_lt_of_calls (calls : caller.Calls inner) : inner.rank < caller.rank := by
  rcases calls with ⟨text, entry, noted⟩
  have shown := observe_shows (Nat.lt_succ_self (tokens text).length) (Nat.le_refl _)
  rcases shown.proper.exists_proper noted with ⟨_, called⟩
  exact called.2.1

/-- Calls that stay at the same level lead to ever lower ranks. -/
theorem rank_lt_of_transGen_calls (calls : Relation.TransGen Calls caller inner) :
    inner.rank < caller.rank := by
  induction calls with
  | single call => exact rank_lt_of_calls call
  | tail _ call ih => exact Nat.lt_trans (rank_lt_of_calls call) ih

end Procedure

/--
Compilation comes to an end for every text, with a number of open calls that is the same for all
texts. No procedure is called at a nesting above the limit, and every one leaves the nesting as it
found it. Declarations, statements, expressions and operands have read a token then, unless they
failed. Procedures that call each other in a circle do so one level deeper.
-/
theorem compile_terminates (text : String) {rounds depth : Nat}
    (enough : (tokens text).length < rounds) (deep : callDepth ≤ depth) :
    (observe rounds depth text).outcome = some (compile text) ∧
      (∀ caller procedure entry,
        .called caller procedure entry ∈ (observe rounds depth text).observations ∨
          .entered caller procedure entry ∈ (observe rounds depth text).observations →
        entry.nesting ≤ maxNesting) ∧
      (∀ procedure entry succeeded exit,
        .returned procedure entry succeeded exit ∈ (observe rounds depth text).observations →
          exit.nesting = entry.nesting ∧
            (succeeded = true → procedure.isProductive = true → entry.Consumes exit)) ∧
      ∀ procedure, ¬Relation.TransGen Procedure.Calls procedure procedure := by
  have proper := (observe_shows enough deep).proper
  refine ⟨outcome_observe enough deep, ?_, ?_, ?_⟩
  · rintro caller procedure entry (called | entered)
    · exact (proper.exists_proper called).elim fun _ proper => proper.1
    · exact (proper.exists_proper entered).elim fun _ proper => proper.1
  · intro procedure entry succeeded exit noted
    rcases proper.exists_proper noted with ⟨_, sameNesting, consumes, _⟩
    exact ⟨sameNesting, consumes⟩
  · exact fun procedure circle => Nat.lt_irrefl _ (Procedure.rank_lt_of_transGen_calls circle)

/-- A function in which constructs are nested, and behind it a block that breaks off. -/
def brokenText : String :=
  "fun f(a) \x7b if (a) return -a; elif (f) print f(1, 2); \x7d \x7b 1 + ; \x7d"

/-- Which procedure has returned, the nesting at which it was called and whether it succeeded. -/
def Observation.ending? : Observation → Option (Procedure × Nat × Bool)
  | returned procedure entry succeeded _ => some (procedure, entry.nesting, succeeded)
  | _ => none

theorem Observation.exists_returned {nesting : Nat} {succeeded : Bool}
    (ended : (procedure, nesting, succeeded) ∈ observations.filterMap ending?) :
    ∃ entry exit, returned procedure entry succeeded exit ∈ observations ∧
      entry.nesting = nesting := by
  rcases List.mem_filterMap.mp ended with ⟨observation, present, isEnding⟩
  cases observation with
  | returned procedure entry success exit =>
    cases isEnding
    exact ⟨entry, exit, present, rfl⟩
  | _ => cases isEnding

/-- Which procedure was called at the same level, by which one and behind which token. -/
def Observation.call? : Observation → Option (Procedure × Procedure × String)
  | called caller procedure entry => some (caller, procedure, entry.previous.lexeme)
  | _ => none

theorem Observation.exists_called {caller : Procedure} {lexeme : String}
    (asked : (caller, procedure, lexeme) ∈ observations.filterMap call?) :
    ∃ entry, called caller procedure entry ∈ observations ∧ entry.previous.lexeme = lexeme := by
  rcases List.mem_filterMap.mp asked with ⟨observation, present, isCall⟩
  cases observation with
  | called caller procedure entry =>
    cases isCall
    exact ⟨entry, present, rfl⟩
  | _ => cases isCall

/--
The statement behind `elif` is read, three levels deep, and the last block fails. There is no
circle among the calls that stay at the same level, of which there are some.
-/
theorem compile_terminates_brokenText :
    (tokens brokenText).length < 64 ∧
      (observe 64 callDepth brokenText).outcome = some (compile brokenText) ∧
      (∃ entry, .called .expression (.operand .assignment) entry ∈
          (observe 64 callDepth brokenText).observations ∧ entry.nesting ≤ maxNesting) ∧
      ¬Relation.TransGen Procedure.Calls .expression .expression ∧
      (∃ entry exit,
        .returned .statement entry true exit ∈ (observe 64 callDepth brokenText).observations ∧
          entry.nesting = 3 ∧ exit.nesting = 3 ∧ entry.Consumes exit) ∧
      ∃ entry exit,
        .returned .statement entry false exit ∈ (observe 64 callDepth brokenText).observations ∧
          entry.nesting = 0 ∧ exit.nesting = 0 := by
  have evaluated : (tokens brokenText).length < 64 ∧
      (Procedure.expression, Procedure.operand .assignment, "return") ∈
        (observe 64 callDepth brokenText).observations.filterMap Observation.call? ∧
      ∀ ending ∈ [(Procedure.statement, 3, true), (.statement, 0, false)],
        ending ∈ (observe 64 callDepth brokenText).observations.filterMap Observation.ending? := by
    decide +kernel
  rcases evaluated with ⟨few, calls, ends⟩
  rcases compile_terminates brokenText few (Nat.le_refl callDepth) with
    ⟨outcomeEq, nested, returns, noCircle⟩
  refine ⟨few, outcomeEq, ?_, noCircle _, ?_, ?_⟩
  · rcases Observation.exists_called calls with ⟨entry, present, _⟩
    exact ⟨entry, present, nested _ _ _ (.inl present)⟩
  · rcases Observation.exists_returned (ends _ List.mem_cons_self) with
      ⟨entry, exit, present, nestingEq⟩
    rcases returns _ _ _ _ present with ⟨restored, consumes⟩
    exact ⟨entry, exit, present, nestingEq, restored.trans nestingEq, consumes rfl rfl⟩
  · rcases Observation.exists_returned (ends (.statement, 0, false) (by simp)) with
      ⟨entry, exit, present, nestingEq⟩
    exact ⟨entry, exit, present, nestingEq, (returns _ _ _ _ present).1.trans nestingEq⟩

/-! ## Operations that are not defined everywhere -/

def Compile.Refuses {α : Type} (action : Compile α) (kind : CompileError.Kind)
    (compiler : Compiler) : Prop :=
  ∃ error after, action compiler = .error error after ∧ error.kind = kind

namespace Compile

variable {compiler compiler' : Compiler} {inner : Parser}

theorem patchJump_refuses {offset : Nat} (outside : compiler.draft.chunk.size < offset + 2) :
    Refuses (patchJump offset) .misplacedJump compiler := by
  rw [Refuses, patchJump, bind_of_ok (show codeSize compiler = .ok _ compiler from rfl),
    if_pos outside]
  exact ⟨_, _, rfl, rfl⟩

theorem emitLoop_refuses {start : Nat} (ahead : compiler.draft.chunk.size + 3 < start) :
    Refuses (emitLoop start) .misplacedJump compiler := by
  have sizeEq : (compiler.onChunk (·.writeOpcode .loop compiler.previous.line)).draft.chunk.size =
      compiler.draft.chunk.size + 1 := by
    simp [Compiler.onChunk, Compiler.onDraft, Chunk.size, Chunk.writeOpcode]
  rw [Refuses, emitLoop, bind_of_ok (show emit .loop compiler = .ok () _ from rfl),
    bind_of_ok (show codeSize _ = .ok _ _ from rfl), if_pos (by rw [sizeEq]; exact ahead)]
  exact ⟨_, _, rfl, rfl⟩

theorem count_le_of_separatedWithin {bound : List Token} {count last : Nat}
    (few : count ≤ maxArguments)
    (ran : separatedWithin (argument inner) bound count compiler = .ok last compiler') :
    last ≤ maxArguments := by
  have step {count next : Nat} {compiler compiler' : Compiler} (few : count ≤ maxArguments)
      (ran : argument inner count compiler = .ok next compiler') : next ≤ maxArguments := by
    rcases bind_eq_ok.mp ran with ⟨_, _, _, ranCount⟩
    split at ranCount
    · exact absurd ranCount fail_ne_ok
    · rcases pure_eq_ok.mp ranCount with ⟨rfl, _⟩
      omega
  induction bound generalizing count compiler with
  | nil => exact step few ran
  | cons token bound ih =>
    rcases bind_eq_ok.mp ran with ⟨next, _, ranItem, ran⟩
    rcases bind_eq_ok.mp ran with ⟨accepted, _, _, ran⟩
    cases accepted with
    | true => exact ih (step few ranItem) ran
    | false =>
      rcases pure_eq_ok.mp ran with ⟨rfl, _⟩
      exact step few ranItem

theorem count_le_of_arguments {count : Nat} (ran : arguments inner compiler = .ok count compiler') :
    count ≤ maxArguments := by
  rcases bind_eq_ok.mp ran with ⟨kind, _, _, ran⟩
  dsimp only at ran
  split at ran
  · rcases bind_eq_ok.mp ran with ⟨none, _, ranNone, ran⟩
    rcases bind_eq_ok.mp ran with ⟨_, _, _, ran⟩
    rcases pure_eq_ok.mp ranNone with ⟨rfl, _⟩
    rcases pure_eq_ok.mp ran with ⟨rfl, _⟩
    exact Nat.zero_le _
  · rcases bind_eq_ok.mp ran with ⟨last, _, ranItems, ran⟩
    rcases bind_eq_ok.mp ran with ⟨_, _, _, ran⟩
    rcases pure_eq_ok.mp ran with ⟨rfl, _⟩
    exact count_le_of_separatedWithin (Nat.zero_le _) ranItems

end Compile

theorem Chunk.toNat_addConstant? {κ : Type} {chunk chunk' : Chunk κ} {constant : κ}
    {index : UInt8} (added : chunk.addConstant? constant = some (index, chunk')) :
    index.toNat = chunk.constants.size := by
  unfold addConstant? at added
  split at added
  · next room =>
    cases added
    exact UInt8.toNat_ofNat_of_lt' room
  · cases added

theorem Scope.exists_addBreak_eq {scopes : List Scope} {loop : Scope}
    (found : innermostLoop? scopes = some loop) (jump : Nat) :
    ∃ index : Nat, scopes[index]? = some loop ∧ addBreak jump scopes =
      scopes.modify index fun scope => { scope with breaks := jump :: scope.breaks } := by
  induction scopes with
  | nil => cases found
  | cons scope outer ih =>
    rw [innermostLoop?, List.find?_cons] at found
    rw [addBreak]
    by_cases isLoop : scope.kind = .loop
    · simp only [isLoop, decide_true] at found
      cases found
      exact ⟨0, rfl, by rw [if_pos isLoop]; rfl⟩
    · simp only [isLoop, decide_false] at found
      rcases ih found with ⟨index, here, filed⟩
      exact ⟨index + 1, here, by rw [if_neg isLoop, filed]; rfl⟩

namespace Compile

variable {compiler compiler' : Compiler}

theorem scopes_of_expect {kind : Token.Kind} {expectation : Expectation}
    (ran : expect kind expectation compiler = .ok () compiler') :
    compiler'.draft.scopes = compiler.draft.scopes := by
  rcases bind_eq_ok.mp ran with ⟨_, _, ranLook, ran⟩
  rcases lookahead_eq_ok.mp ranLook with ⟨rfl, rfl⟩
  split at ran
  · rw [advance_eq_ok ran, Compiler.shift]
    split <;> rfl
  · exact absurd ran failAhead_ne_ok

theorem scopes_of_emitPops {count : Nat} (ran : emitPops count compiler = .ok () compiler') :
    compiler'.draft.scopes = compiler.draft.scopes := by
  induction count generalizing compiler with
  | zero => rw [(pure_eq_ok.mp ran).2]
  | succ count ih =>
    rcases bind_eq_ok.mp ran with ⟨_, emitted, ranEmit, ranRest⟩
    cases ranEmit
    have same := ih ranRest
    exact same

theorem exists_scope_of_breakStatement (ran : breakStatement compiler = .ok () compiler') :
    ∃ index jump : Nat, ∃ loop, compiler.draft.scopes[index]? = some loop ∧
      compiler'.draft.scopes = compiler.draft.scopes.modify index fun scope =>
        { scope with breaks := jump :: scope.breaks } := by
  rw [breakStatement, get_bind] at ran
  cases found : Scope.innermostLoop? compiler.draft.scopes with
  | none =>
    rw [found] at ran
    exact absurd ran fail_ne_ok
  | some loop =>
    rw [found] at ran
    rcases bind_eq_ok.mp ran with ⟨_, closed, ranExpect, ran⟩
    rw [get_bind] at ran
    rcases bind_eq_ok.mp ran with ⟨_, popped, ranPops, ran⟩
    rcases bind_eq_ok.mp ran with ⟨jump, written, ranJump, ranBreak⟩
    have sameScopes : written.draft.scopes = compiler.draft.scopes := by
      rw [← scopes_of_expect ranExpect, ← scopes_of_emitPops ranPops]
      simp only [emitJump, emit, bind_eq_ok, codeSize_eq_ok, modify_eq_ok, pure_eq_ok,
        EStateM.Result.ok.injEq] at ranJump
      rcases ranJump with ⟨_, _, ⟨_, rfl⟩, _, _, rfl, _, _, ⟨_, rfl⟩, _, rfl⟩
      rfl
    rcases Scope.exists_addBreak_eq found jump with ⟨index, here, filed⟩
    refine ⟨index, jump, loop, here, ?_⟩
    rw [← modify_eq_ok.mp ranBreak, ← filed, ← sameScopes]
    rfl

end Compile

/--
Whatever is applied on the way to a script or to an error is defined there. Tokens can be cut out of
the text, and slots are numbered by bytes. Literals, operators and quotes are taken from tokens that
have them. Jumps out of range are refused, and so are numbers that cannot be read, but no text is
refused for that. Bytes hold the numbers of constants and of arguments.
-/
theorem compile_defined (text : String) {rounds depth : Nat}
    (enough : (tokens text).length < rounds) (deep : callDepth ≤ depth) :
    (observe rounds depth text).outcome = some (compile text) ∧
      (∀ compiler, .stepped compiler ∈ (observe rounds depth text).observations →
        compiler.Defined text) ∧
      (∀ caller procedure entry,
        .called caller procedure entry ∈ (observe rounds depth text).observations →
          procedure.Suits entry.previous) ∧
      (∀ error, compile text = .error error →
        error.kind ≠ .misplacedJump ∧ ∀ lexeme, error.kind ≠ .invalidNumber lexeme) ∧
      (∀ compiler offset, compiler.draft.chunk.size < offset + 2 →
        (Compile.patchJump offset).Refuses .misplacedJump compiler) ∧
      (∀ compiler start, compiler.draft.chunk.size + 3 < start →
        (Compile.emitLoop start).Refuses .misplacedJump compiler) ∧
      (∀ scopes loop, Scope.innermostLoop? scopes = some loop →
        ∃ index : Nat, scopes[index]? = some loop) ∧
      (∀ compiler after, Compile.breakStatement compiler = .ok () after →
        ∃ index jump : Nat, ∃ loop, compiler.draft.scopes[index]? = some loop ∧
          after.draft.scopes = compiler.draft.scopes.modify index fun scope =>
            { scope with breaks := jump :: scope.breaks }) ∧
      (∀ (chunk chunk' : Chunk Constant) constant index,
        chunk.addConstant? constant = some (index, chunk') →
          index.toNat = chunk.constants.size) ∧
      ∀ parser compiler count after, Compile.arguments parser compiler = .ok count after →
        (UInt8.ofNat count).toNat = count := by
  have proper := (observe_shows enough deep).proper
  refine ⟨outcome_observe enough deep,
    fun compiler noted => (proper.exists_proper noted).elim fun _ defined => defined, ?_, ?_,
    fun compiler offset => Compile.patchJump_refuses,
    fun compiler start => Compile.emitLoop_refuses,
    fun scopes loop found => List.mem_iff_getElem?.mp (List.mem_of_find?_eq_some found),
    fun compiler after => Compile.exists_scope_of_breakStatement,
    fun chunk chunk' constant index => Chunk.toNat_addConstant?, ?_⟩
  · exact fun caller procedure entry noted =>
      (proper.exists_proper noted).elim fun _ proper => proper.2.2.1
  · intro error failed
    have regular := isDefect_of_compile failed
    constructor
    · intro misplaced
      simp [misplaced, CompileError.Kind.isDefect] at regular
    · intro lexeme invalid
      simp [invalid, CompileError.Kind.isDefect] at regular
  · intro parser compiler count after ran
    exact UInt8.toNat_ofNat_of_lt' (Nat.lt_succ_of_le (Compile.count_le_of_arguments ran))

/-- A loop that is left from inside of two blocks, and a string of one character in two bytes. -/
def quotedText : String :=
  "\x7b var a = \"é\"; while (!a) \x7b print 1.5; if (a) break; \x7d \x7d"

/-- The string is read behind a token of four bytes, two of which are its quotes. -/
theorem compile_defined_quotedText :
    (tokens quotedText).length < 64 ∧
      (observe 64 callDepth quotedText).outcome = some (compile quotedText) ∧
      (∃ entry, .called (.climb .assignment) (.leading true .string) entry ∈
        (observe 64 callDepth quotedText).observations ∧ entry.previous.lexeme = "\"é\"") ∧
      IsSpan "\"é\"" 1 3 ∧
      ∃ entry, .called (.climb .unary) (.leading false .variable) entry ∈
        (observe 64 callDepth quotedText).observations ∧ entry.previous.lexeme = "a" := by
  have evaluated : (tokens quotedText).length < 64 ∧ ∀ call ∈
      [(Procedure.climb .assignment, Procedure.leading true .string, "\"é\""),
        (.climb .unary, .leading false .variable, "a")],
      call ∈ (observe 64 callDepth quotedText).observations.filterMap Observation.call? := by
    decide +kernel
  rcases evaluated with ⟨few, calls⟩
  rcases compile_defined quotedText few (Nat.le_refl callDepth) with ⟨outcomeEq, _, suits, _⟩
  rcases Observation.exists_called (calls _ List.mem_cons_self) with ⟨entry, called, lexemeEq⟩
  have quoted := suits _ _ _ called
  rw [Procedure.Suits, lexemeEq] at quoted
  exact ⟨few, outcomeEq, ⟨entry, called, lexemeEq⟩, quoted.2,
    Observation.exists_called (calls _ (by simp))⟩

end StackScript
