import StackScript.Proofs.Comparison
import StackScript.Proofs.Observing.Agreement

/-!
# What a refused text is blamed for

An error names a token that the compiler has seen: the one that it looks at or the one that was read
last. The compiler sees nothing of a text behind that token, so two texts that agree that far are
compiled in the same way until one of the compilers goes further.
-/

namespace StackScript

variable {token : Token} {after : Compiler} {error : CompileError} {kind : CompileError.Kind}
  {text : String}

open Compile (Known maxNesting)

/-- Whether two tokens are the same and stand on the same line. -/
structure Token.Twin (token other : Token) : Prop extends Token.Same token other where
  line_eq : token.line = other.line

theorem Token.Twin.refl (token : Token) : token.Twin token :=
  ⟨⟨rfl, rfl⟩, rfl⟩

theorem Token.Twin.atToken_eq {other : Token} (twin : token.Twin other) (kind : CompileError.Kind) :
    CompileError.atToken other kind = CompileError.atToken token kind := by
  rw [CompileError.atToken, CompileError.atToken, twin.line_eq, twin.lexeme_eq]

/-- Whether tokens of the language were read of a text, and `previous` is one of those in sight. -/
def Token.LeftOf (whole stream : List Token) (previous : Token) : Prop :=
  ∃ read, whole = read ++ stream ∧ (∀ token ∈ read ++ stream.take 1, token.Readable) ∧
    previous ∈ read ++ stream.take 1

namespace Comparison

/-- A text beside itself. -/
def itself (whole : List Token) : Comparison where
  view := .same
  related := Eq
  kind_eq := by
    rintro _ _ rfl
    rfl
  line := congrArg Token.line
  name same _ := congrArg Token.lexeme same.symm
  literal same _ := congrArg Token.lexeme same.symm
  finished same _ := congrArg Draft.function same
  holds := Token.LeftOf whole
  moves := by
    rintro current ahead previous rest ⟨read, wholeEq, readable, _⟩ next
    refine ⟨read ++ [current], by simpa using wholeEq, ?_, by simp⟩
    intro token present
    rcases List.mem_append.mp present with earlier | last
    · exact readable token earlier
    · rw [List.mem_singleton.mp last]
      exact next
  stays := by
    rintro current previous ⟨read, wholeEq, readable, _⟩
    exact ⟨read, wholeEq, readable, by simp⟩
  rest := []
  others := []

/-- Two texts with the same tokens up to `rest` and `others`. -/
def beginning (rest others : List Token) : Comparison where
  view := .same
  related := Token.Twin
  kind_eq twin := twin.kind_eq.symm
  line twin := twin.line_eq
  name twin _ := twin.lexeme_eq.symm
  literal twin _ := twin.lexeme_eq.symm
  finished same _ := congrArg Draft.function same
  holds _ _ := True
  moves _ _ := trivial
  stays _ := trivial
  rest := rest
  others := others

end Comparison

structure Compiler.Blames (whole read : List Token) (token : Token) (kind : CompileError.Kind)
    (after : Compiler) : Prop where
  whole_eq : whole = read ++ after.stream
  readable : ∀ token ∈ read, token.Readable
  among : token = after.current ∨ token = after.previous
  scanned : token ∈ read ++ [after.current]
  unreadable_iff : ∀ reason, kind = .unreadable reason ↔ token.kind = .error reason

theorem CompileError.Kind.ne_unreadable (regular : kind.isUnreadable = false) (reason : ScanError) :
    kind ≠ .unreadable reason := by
  rintro rfl
  cases regular

theorem Comparison.Blames.exists_read {whole : List Token}
    (blames : (Comparison.itself whole).Blames after token kind) :
    ∃ read, after.Blames whole read token kind := by
  cases blames with
  | seen among regular holds =>
    rcases holds with ⟨read, wholeEq, readable, previous⟩
    have scanned : token ∈ read ++ [after.current] := by
      rcases among with rfl | rfl
      · simp
      · exact previous
    refine ⟨read, wholeEq, fun earlier present => readable earlier (by simp [present]), among,
      scanned, fun reason => ?_⟩
    exact iff_of_false (CompileError.Kind.ne_unreadable regular reason)
      (readable token scanned reason)
  | @unreadable before reason holds here streamEq isError =>
    rcases holds with ⟨read, wholeEq, readable, _⟩
    have currentEq : after.current = before.shift.current := (List.cons.inj streamEq).1
    cases ahead : before.upcoming with
    | nil =>
      rw [here, currentEq, Compiler.shift_of_nil ahead] at isError
      exact absurd isError (readable before.current (by simp [Compiler.stream]) reason)
    | cons next rest =>
      rw [Compiler.shift_of_cons ahead] at streamEq
      refine ⟨read ++ [before.current], ?_, ?_, .inl here, by simp [here], fun other => ?_⟩
      · rw [wholeEq, streamEq, Compiler.stream, ahead]
        simp [Compiler.stream]
      · simpa [Compiler.stream] using readable
      · rw [isError]
        simp

theorem Compile.Compared.of_error {α β : Type} {comparison : Comparison} {same : α → β → Prop}
    {result : EStateM.Result CompileError Compiler β}
    (compared : Compared comparison same (.error error after) result) :
    (∃ token token' kind after', error = .atToken token kind ∧
      result = .error (.atToken token' (kind.renamed comparison.view.rename)) after' ∧
      comparison.related token token' ∧ comparison.Blames after token kind) ∨
    after.upcoming.length < comparison.rest.length := by
  cases compared with
  | error related blames => exact .inl ⟨_, _, _, _, rfl, rfl, related, blames⟩
  | beyond further => exact .inr further

/-! ## The first token

Nothing has been read yet when a program begins. Until then nothing fails at the token that was
read last.
-/

namespace Compile

variable {α β : Type} {compiler after : Compiler} {error : CompileError} {text : String}

/-- Whether an action fails at the token ahead or does not depend on the one that was read last. -/
def Sober (action : Compile α) (compiler : Compiler) : Prop :=
  (∃ kind, kind.isUnreadable = false ∧
    action compiler = .error (.atToken compiler.current kind) compiler) ∨
  ∀ token, action { compiler with previous := token } = action compiler

namespace Sober

theorem advance (compiler : Compiler) : Sober advance compiler := by
  refine .inr fun token => ?_
  have moved : { compiler with previous := token }.shift = compiler.shift := by
    cases ahead : compiler.upcoming <;> simp only [Compiler.shift, ahead]
  simp only [Compile.advance, moved]

theorem miss {kind : CompileError.Kind} (regular : kind.isUnreadable = false) :
    Sober (failAhead kind : Compile α) compiler :=
  .inl ⟨kind, regular, rfl⟩

theorem bind {action : Compile α} {next : α → Compile β} (first : Sober action compiler) :
    Sober (action >>= next) compiler := by
  rcases first with ⟨kind, regular, failed⟩ | same
  · exact .inl ⟨kind, regular, by rw [bind_apply, failed]⟩
  · exact .inr fun token => by rw [bind_apply, bind_apply, same]

theorem look {next : Token.Kind → Compile α}
    (sober : Sober (next compiler.current.kind) compiler) : Sober (lookahead >>= next) compiler :=
  sober

theorem nested {body : Compile Unit} (inside : ∀ compiler, Sober body compiler) :
    Sober (nested body) compiler := by
  rw [Sober, Compile.nested]
  by_cases shallow : compiler.nesting < maxNesting
  · simp only [if_pos shallow]
    rcases inside { compiler with nesting := compiler.nesting + 1 } with
      ⟨kind, regular, failed⟩ | same
    · exact .inl ⟨kind, regular, by rw [failed]; rfl⟩
    · refine .inr fun token => ?_
      have unchanged :
          body { compiler with previous := token, nesting := compiler.nesting + 1 } = _ :=
        same token
      rw [Compile.nested, if_pos shallow, unchanged]
  · exact .inl ⟨.tooDeeplyNested, rfl, if_neg shallow⟩

theorem expression (levels : Nat) (compiler : Compiler) :
    Sober (Parser.level levels).expression compiler := by
  cases levels with
  | zero => exact miss rfl
  | succ levels => exact nested fun compiler => look (bind (advance compiler))

theorem statement (levels : Nat) (compiler : Compiler) :
    Sober (Parser.level levels).statement compiler := by
  cases levels with
  | zero => exact miss rfl
  | succ levels =>
    apply nested
    intro compiler
    apply look
    split <;> first | exact bind (advance compiler) | exact bind (expression levels compiler)

theorem declaration (levels : Nat) (compiler : Compiler) :
    Sober (declaration (.level levels)) compiler := by
  apply look
  split
  · exact bind (advance compiler)
  · exact bind (advance compiler)
  · exact statement levels compiler

theorem declarations (levels : Nat) (ends : compiler.Ends) :
    Sober (Procedure.program.action levels) compiler := by
  have more : Sober (repeatWithin (do return !(← accept .endOfText))
      (Compile.declaration (.level levels))
      compiler.upcoming) compiler := by
    by_cases atEnd : compiler.current.kind = .endOfText
    · rw [ends.atEnd_iff.mp atEnd]
      refine bind (bind (look ?_))
      rw [if_pos atEnd]
      exact bind (advance compiler)
    · rcases List.exists_cons_of_ne_nil (mt ends.atEnd_iff.mpr atEnd) with ⟨token, rest, ahead⟩
      have goesOn : ∀ compiler' : Compiler, compiler'.current = compiler.current →
          (do return !(← accept .endOfText) : Compile Bool) compiler' = .ok true compiler' := by
        intro compiler' currentEq
        rw [bind_of_ok (accept_of_ne (currentEq ▸ atEnd))]
        rfl
      rw [ahead, repeatWithin]
      have first : Sober (Compile.declaration (.level levels) >>= fun _ =>
        repeatWithin (do return !(← accept .endOfText)) (Compile.declaration (.level levels)) rest)
        compiler := bind (declaration levels compiler)
      rcases first with ⟨kind, regular, failed⟩ | same
      · exact .inl ⟨kind, regular, (bind_of_ok (goesOn compiler rfl)).trans failed⟩
      · refine .inr fun token => ?_
        rw [bind_of_ok (goesOn { compiler with previous := token } rfl), bind_of_ok (goesOn _ rfl)]
        exact same token
  exact more

end Sober

/-! ## Programs -/

/-- Reading fails exactly if the token behind the one that is read is an error. -/
theorem advance_cases (compiler : Compiler) :
    (∃ reason, compiler.shift.current.kind = .error reason ∧
      advance compiler = .error (.atToken compiler.shift.current (.unreadable reason))
        compiler.shift) ∨
    compiler.shift.current.Readable ∧ advance compiler = .ok () compiler.shift := by
  simp only [advance]
  split
  · next reason isError => exact .inl ⟨reason, isError, rfl⟩
  · next noError => exact .inr ⟨noError, rfl⟩

/-- A program fails at the first token that comes in sight, or behind it. -/
theorem program_eq_error_iff :
    program (.ofText text) = .error error after ↔
      advance (.ofText text) = .error error after ∨
      (Compiler.ofText text).shift.current.Readable ∧
        Procedure.program.action (maxNesting + 1) (Compiler.ofText text).shift =
          .error error after := by
  have begins : program = advance >>= fun _ => Procedure.program.action (maxNesting + 1) >>=
    fun _ => finish := rfl
  rw [begins, bind_apply]
  rcases advance_cases (.ofText text) with ⟨reason, isError, failed⟩ | ⟨readable, ran⟩
  · rw [failed]
    simp [Token.Readable, isError]
  · rw [ran]
    simp only [bind_apply, readable, true_and, reduceCtorEq, false_or]
    cases Procedure.program.action (maxNesting + 1) (Compiler.ofText text).shift with
    | ok value last =>
      exact iff_of_false (fun failed => by cases failed) (fun failed => by cases failed)
    | error error last => simp

theorem ends_shift_ofText (text : String) : (Compiler.ofText text).shift.Ends := by
  rcases tokens_end text with ⟨front, ending, tokensEq, atEnd, before⟩
  refine ⟨front, ending, ?_, atEnd, fun token present => (before token present).1⟩
  rw [(Compiler.shift_ofText text).1, tokensEq]

/-- A program that is refused is blamed on a token that was seen. -/
theorem exists_blames (failed : program (.ofText text) = .error error after) :
    ∃ read token kind, error = .atToken token kind ∧
      after.Blames (tokens text) read token kind := by
  have streamEq := (Compiler.shift_ofText text).1
  rcases program_eq_error_iff.mp failed with failedFirst | ⟨readable, failedLater⟩
  · rcases advance_cases (.ofText text) with ⟨reason, isError, ran⟩ | ⟨_, ran⟩
    · rw [failedFirst] at ran
      cases ran
      refine ⟨[], _, _, rfl, streamEq.symm, by simp, .inl rfl, List.mem_cons_self, fun other => ?_⟩
      rw [isError]
      simp
    · rw [failedFirst] at ran
      cases ran
  · have ends := ends_shift_ofText text
    generalize (Compiler.ofText text).shift = begun at *
    rcases Sober.declarations (maxNesting + 1) ends with ⟨kind, regular, ran⟩ | same
    · rw [failedLater] at ran
      cases ran
      exact ⟨[], _, _, rfl, streamEq.symm, by simp, .inl rfl, List.mem_cons_self, fun reason =>
        iff_of_false (CompileError.Kind.ne_unreadable regular reason) (readable reason)⟩
    · rw [← same begun.current] at failedLater
      have alongside : Compiler.Alongside (.itself (tokens text))
          { begun with previous := begun.current } { begun with previous := begun.current } :=
        ⟨⟨_, _, (List.append_nil _).symm, (List.append_nil _).symm,
          List.forall₂_same.mpr fun _ _ => rfl⟩,
          rfl, rfl, rfl, .refl _, ⟨[], streamEq.symm, by simpa [Compiler.stream] using readable,
          List.mem_cons_self⟩, .inl rfl⟩
      have blind : Blind (.itself (tokens text)) Known.nothing.last
          (Procedure.program.action (maxNesting + 1)) := Built.program.blind
      have compared := blind.compared alongside (by simp [Known.nothing])
      rw [failedLater] at compared
      rcases compared.of_error with ⟨token, _, kind, _, errorEq, _, _, blames⟩ | further
      · rcases blames.exists_read with ⟨read, blamed⟩
        exact ⟨read, token, kind, errorEq, blamed⟩
      · exact absurd further (Nat.not_lt_zero _)

/-- What stands behind the tokens that were seen is of no account. -/
theorem program_of_beginning {other : String} {scanned scanned' others : List Token}
    (some : scanned ≠ []) (failed : program (.ofText text) = .error error after)
    (tokensEq : tokens text = scanned ++ after.upcoming)
    (tokensEq' : tokens other = scanned' ++ others) (twins : scanned.Forall₂ Token.Twin scanned') :
    ∃ after', program (.ofText other) = .error error after' := by
  have streamEq := (Compiler.shift_ofText text).1
  have streamEq' := (Compiler.shift_ofText other).1
  cases twins with
  | nil => exact absurd rfl some
  | cons twin twins =>
    rw [tokensEq, List.cons_append] at streamEq
    rw [tokensEq', List.cons_append] at streamEq'
    rcases List.cons.inj streamEq with ⟨currentEq, upcomingEq⟩
    rcases List.cons.inj streamEq' with ⟨currentEq', upcomingEq'⟩
    rw [← currentEq, ← currentEq'] at twin
    rcases program_eq_error_iff.mp failed with failedFirst | ⟨readable, failedLater⟩
    · rcases advance_cases (.ofText text) with ⟨reason, isError, ran⟩ | ⟨_, ran⟩
      · rw [failedFirst] at ran
        cases ran
        rw [twin.kind_eq] at isError
        rcases advance_cases (.ofText other) with ⟨reason', isError', ran'⟩ | ⟨readable, _⟩
        · rw [isError, Token.Kind.error.injEq] at isError'
          rw [isError', ← twin.atToken_eq]
          exact ⟨_, program_eq_error_iff.mpr (.inl ran')⟩
        · exact absurd isError (readable reason)
      · rw [failedFirst] at ran
        cases ran
    · have blind : Blind (.beginning after.upcoming others) Known.nothing.last
          (Procedure.program.action (maxNesting + 1)) := Built.program.blind
      rcases Compiler.shift_ofText text with ⟨_, previousEq, draftEq, enclosingEq, nestingEq⟩
      rcases Compiler.shift_ofText other with ⟨_, previousEq', draftEq', enclosingEq', nestingEq'⟩
      have previousSame := previousEq.trans previousEq'.symm
      have alongside : (Compiler.ofText text).shift.Alongside (.beginning after.upcoming others)
          (Compiler.ofText other).shift :=
        ⟨⟨_, _, upcomingEq, upcomingEq', twins⟩, twin, previousSame ▸ .refl _,
          nestingEq.trans nestingEq'.symm, ⟨draftEq.trans draftEq'.symm,
          by rw [enclosingEq, enclosingEq']; exact .nil, congrArg Token.line previousSame⟩,
          trivial, .inr ⟨ends_shift_ofText text, ends_shift_ofText other⟩⟩
      have compared := blind.compared alongside (by simp [Known.nothing])
      rw [failedLater] at compared
      rcases compared.of_error with ⟨token, token', kind, after', rfl, ran, same, _⟩ | further
      · refine ⟨after', program_eq_error_iff.mpr (.inr ⟨?_, ?_⟩)⟩
        · intro reason
          rw [← twin.kind_eq]
          exact readable reason
        · rw [ran, ← same.atToken_eq]
          exact congrArg
            (fun kind => EStateM.Result.error (CompileError.atToken token' kind) after')
            kind.renamed_id
      · exact absurd further (Nat.lt_irrefl _)

end Compile

theorem Scans.lexeme_of_endOfText {chars : List Char} {tokens : List Token}
    (scans : Scans chars tokens) (present : token ∈ tokens) (atEnd : token.kind = .endOfText) :
    token.lexeme = "" := by
  induction scans with
  | done _ same =>
    rw [List.mem_singleton.mp present, same.lexeme_eq]
    rfl
  | more _ kindEq _ _ ih =>
    rcases List.mem_cons.mp present with rfl | later
    · exact absurd (kindEq.symm.trans atEnd) (Lexeme.cut_kind_ne _ _)
    · exact ih later

theorem lexeme_eq_empty_iff (present : token ∈ tokens text) :
    token.lexeme = "" ↔ token.kind = .endOfText := by
  refine ⟨fun empty => ?_, (tokens_scans text).lexeme_of_endOfText present⟩
  rcases tokens_end text with ⟨front, ending, tokensEq, atEnd, before⟩
  rw [tokensEq] at present
  rcases List.mem_append.mp present with inFront | last
  · exact absurd empty (before token inFront).2
  · rw [List.mem_singleton.mp last]
    exact atEnd

theorem compile_eq_error_iff :
    compile text = .error error ↔ ∃ after, Compile.program (.ofText text) = .error error after := by
  rw [compile, compileTokens, Compiler.ofText]
  cases Compile.program (.ofTokens (tokens text)) <;> simp

/--
What the error of a text says of the tokens that the compiler has scanned when it gives up: `token`,
at which the compiler looks or which it has read last, is blamed, and what stands behind these
tokens is of no account.
-/
structure CompileError.Traced (text : String) (scanned : List Token) (token : Token)
    (after : Compiler) (error : CompileError) : Prop where
  run : Compile.program (.ofText text) = .error error after
  tokens_eq : tokens text = scanned ++ after.upcoming
  last : scanned.getLast? = some after.current
  among : token = after.current ∨ token = after.previous
  present : token ∈ scanned
  line_eq : error.line = token.line
  lexeme_eq : error.lexeme = token.lexeme
  lexeme_empty : error.lexeme = "" ↔ token.kind = .endOfText
  unreadable_iff : ∀ reason, error.kind = .unreadable reason ↔ token.kind = .error reason
  first : ∀ reason, token.kind = .error reason →
    ∃ front, scanned = front ++ [token] ∧ ∀ earlier ∈ front, earlier.Readable
  same : ∀ other, scanned.Forall₂ Token.Twin ((tokens other).take scanned.length) →
    compile other = .error error

/-- A text that is refused is refused for a token that was seen, and for what was seen only. -/
theorem compile_traced {text : String} {error : CompileError}
    (refused : compile text = .error error) :
    ∃ scanned token after, error.Traced text scanned token after := by
  rcases compile_eq_error_iff.mp refused with ⟨after, run⟩
  rcases Compile.exists_blames run with ⟨read, token, kind, rfl, blames⟩
  have tokensEq : tokens text = (read ++ [after.current]) ++ after.upcoming := by
    rw [blames.whole_eq, Compiler.stream, List.append_assoc, List.singleton_append]
  have present : token ∈ tokens text := by
    rw [tokensEq]
    exact List.mem_append_left _ blames.scanned
  refine ⟨read ++ [after.current], token, after, {
    run := run
    tokens_eq := tokensEq
    last := List.getLast?_concat
    among := blames.among
    present := blames.scanned
    line_eq := rfl
    lexeme_eq := rfl
    lexeme_empty := lexeme_eq_empty_iff present
    unreadable_iff := blames.unreadable_iff
    first := ?_
    same := ?_ }⟩
  · -- All that has been read is of the language, so that an error is what the compiler looks at.
    intro reason isError
    rcases List.mem_append.mp blames.scanned with inRead | last
    · exact absurd isError (blames.readable token inRead reason)
    · exact ⟨read, by rw [List.mem_singleton.mp last], blames.readable⟩
  · intro other twins
    exact compile_eq_error_iff.mpr (Compile.program_of_beginning (by simp) run tokensEq
      (List.take_append_drop _ _).symm twins)

/-- A program whose second line begins with a character that is none of the language. -/
def strayText : String :=
  "print a;\n~ b"

/-- The first line is given up when the second one comes in sight. -/
theorem compile_traced_strayText : ∃ scanned token after,
    CompileError.Traced strayText scanned token after
      ⟨.unreadable .unexpectedCharacter, 2, "~"⟩ := by
  have refused : (match compile strayText with
      | .ok _ => none
      | .error error => some error) =
      some ⟨.unreadable .unexpectedCharacter, 2, "~"⟩ := by
    decide +kernel
  cases compiled : compile strayText with
  | ok script =>
    rw [compiled] at refused
    cases refused
  | error error =>
    rw [compiled] at refused
    cases refused
    exact compile_traced compiled

end StackScript
