import StackScript.Proofs.Reading.Statement

/-!
# What the compiler accepts

The levels of the grammar are sound one after the other, from the one at which nothing is accepted
upwards. A text that compiles is therefore a program of the grammar, and its script is the tree of
that program written out.
-/

namespace StackScript

open Compile

namespace Parser

variable {compiler : Compiler} {inside : Nat}

theorem exhausted_sound : exhausted.Sound where
  operand _ _ _ ran := absurd ran failAhead_ne_ok
  statement _ ran := absurd ran failAhead_ne_ok
  alternative _ ran := absurd ran failAhead_ne_ok
  functionBody _ ran := absurd ran failAhead_ne_ok

theorem reads_of_nested {after : Compiler} {tokens : List Token} {outside : Nat}
    (reads : { compiler with nesting := inside }.Reads tokens after) :
    compiler.Reads tokens { after with nesting := outside } :=
  ⟨reads.stream_eq, reads.enclosing_eq⟩

theorem ends_nested (ends : compiler.Ends) : { compiler with nesting := inside }.Ends :=
  ends

theorem above_sound {inner : Parser} (sound : inner.Sound) : inner.above.Sound where
  operand loose tight ends ran := by
    rcases nested_eq_ok.mp ran with ⟨_, after, ranInside, rfl⟩
    rcases climb_read sound loose tight (ends_nested ends) ranInside with
      ⟨⟨tokens, expression, reads, derives, writes⟩, saturated⟩
    exact ⟨⟨tokens, expression, reads_of_nested reads, derives, writes⟩, saturated⟩
  statement ends ran := by
    rcases nested_eq_ok.mp ran with ⟨_, after, ranInside, rfl⟩
    rcases statement_read sound (ends_nested ends) ranInside with ⟨tokens, statement, reads, read⟩
    exact ⟨tokens, statement, reads_of_nested reads, read⟩
  alternative ends ran := by
    rcases nested_eq_ok.mp ran with ⟨_, after, ranInside, rfl⟩
    rcases conditional_read sound (ends_nested ends) ranInside with ⟨tokens, statement, reads, read⟩
    exact ⟨tokens, statement, reads_of_nested reads, read⟩
  functionBody ends ran := by
    rcases nested_eq_ok.mp ran with ⟨_, after, ranInside, rfl⟩
    rcases functionBody_read sound (ends_nested ends) ranInside with
      ⟨tokens, parameters, body, function, stops, reads, read⟩
    exact ⟨tokens, parameters, body, function, stops, reads_of_nested reads, read⟩

theorem level_sound (below : Nat) : (level below).Sound := by
  induction below with
  | zero => exact exhausted_sound
  | succ below ih => exact above_sound ih

theorem top_sound : top.Sound :=
  level_sound _

end Parser

namespace Compile

variable {inner : Parser} {compiler compiler' : Compiler}

theorem programContinues_eq_ok {more : Bool} (ends : compiler.Ends)
    (ran : (do return !(← accept .endOfText) : Compile Bool) compiler = .ok more compiler') :
    (more = true ∧ compiler' = compiler) ∨
      (more = false ∧ compiler.current.kind = .endOfText ∧
        compiler'.draft = compiler.draft) := by
  simp only [accept, bind_eq_ok, lookahead_eq_ok, pure_eq_ok] at ran
  rcases ran with ⟨_, _, ⟨_, _, ⟨rfl, rfl⟩, ranAccept⟩, rfl, rfl⟩
  split at ranAccept
  · next ended =>
    simp only [bind_eq_ok, pure_eq_ok] at ranAccept
    rcases ranAccept with ⟨_, _, ranAdvance, rfl, rfl⟩
    rw [advance_eq_ok ranAdvance, Compiler.shift, ends.atEnd_iff.mp ended]
    exact Or.inr ⟨rfl, ended, rfl⟩
  · rcases pure_eq_ok.mp ranAccept with ⟨rfl, rfl⟩
    exact Or.inl ⟨rfl, rfl⟩

theorem programRounds_read (sound : inner.Sound) (bound : List Token) (ends : compiler.Ends)
    (enough : compiler.upcoming.length ≤ bound.length)
    (ran : repeatWithin (do return !(← accept .endOfText)) (declaration inner) bound compiler =
      .ok () compiler') :
    ∃ body, Grammar.Program compiler.stream body ∧
      ∃ stops, body.Writes compiler.draft compiler'.draft stops := by
  have nothingLeft : ∀ {last : Compiler}, last.Ends → last.current.kind = .endOfText →
      Grammar.Program last.stream .empty := by
    intro last lastEnds ended
    exact ⟨0, [], last.current, by simp [Compiler.stream, lastEnds.atEnd_iff.mp ended], ended,
      .nothing⟩
  induction bound generalizing compiler with
  | nil =>
    rcases bind_eq_ok.mp ran with ⟨more, _, ranMore, ranEnd⟩
    rcases pure_eq_ok.mp ranEnd with ⟨_, rfl⟩
    have ended := ends.atEnd_iff.mpr (List.length_eq_zero_iff.mp (Nat.le_zero.mp enough))
    rcases programContinues_eq_ok ends ranMore with ⟨_, rfl⟩ | ⟨_, _, draftEq⟩
    · exact ⟨.empty, nothingLeft ends ended, [], rfl, rfl⟩
    · exact ⟨.empty, nothingLeft ends ended, [], draftEq, rfl⟩
  | cons token bound ih =>
    rcases bind_eq_ok.mp ran with ⟨more, _, ranMore, ranRest⟩
    rcases programContinues_eq_ok ends ranMore with ⟨rfl, rfl⟩ | ⟨rfl, ended, draftEq⟩
    · rcases bind_eq_ok.mp ranRest with ⟨_, declared, ranFirst, ranOthers⟩
      rcases declaration_read sound ends ranFirst with
        ⟨first, statement, reads, ⟨_, derives⟩, ⟨stops, writes⟩, _⟩
      have shorter := reads.upcoming_lt derives.declaration_ne_nil
      simp only [List.length_cons] at enough
      rcases ih (reads.ends ends) (by omega) ranOthers with
        ⟨others, ⟨_, rest, ending, restEq, endKind, derivesRest⟩, stopsRest, writesRest⟩
      refine ⟨.sequence statement others,
        ⟨_, first ++ rest, ending, ?_, endKind, .more derives derivesRest⟩, _, _, stops,
        stopsRest, writes, writesRest, rfl⟩
      rw [reads.stream_eq, restEq, List.append_assoc]
    · rcases pure_eq_ok.mp ranRest with ⟨_, rfl⟩
      exact ⟨.empty, nothingLeft ends ended, [], draftEq, rfl⟩

/-- What is compiled from tokens of which only the last one is the end of the text. -/
theorem compileTokens_read {front : List Token} {ending : Token} {script : Function}
    (atEnd : ending.kind = .endOfText) (before : ∀ token ∈ front, token.kind ≠ .endOfText)
    (compiled : compileTokens (front ++ [ending]) = .ok script) :
    ∃ body, Grammar.Program (front ++ [ending]) body ∧
      ∃ stops, body.WritesScript script stops := by
  unfold compileTokens at compiled
  cases ran : program (.ofTokens (front ++ [ending])) with
  | error error _ =>
    rw [ran] at compiled
    cases compiled
  | ok result compiler =>
    rw [ran] at compiled
    cases compiled
    simp only [program, finish, repeatWhile, bind_eq_ok, get_eq_ok, modify_eq_ok, pure_eq_ok] at ran
    rcases ran with ⟨_, started, ranStart, _, done, ⟨_, _, ⟨rfl, rfl⟩, ranRounds⟩, _, returned,
      ranReturn, _, _, ⟨rfl, rfl⟩, _, _, _, rfl, _⟩
    have startedStream : started.stream = front ++ [ending] := by
      rw [advance_eq_ok ranStart, Compiler.shift, Compiler.ofTokens]
      rcases front with _ | ⟨token, rest⟩
      · rfl
      · rfl
    have startedDraft : started.draft = .script := by
      rw [advance_eq_ok ranStart, Compiler.shift, Compiler.ofTokens]
      rcases front with _ | ⟨token, rest⟩
      · rfl
      · rfl
    rcases programRounds_read Parser.top_sound _ ⟨front, ending, startedStream, atEnd, before⟩
      (Nat.le_refl _) ranRounds with ⟨body, derives, stops, writes⟩
    rw [startedStream] at derives
    rw [startedDraft] at writes
    exact ⟨body, derives, stops, _, _, writes, effect_of_ok ranReturn, rfl⟩

end Compile

/-! ## Tokens of a text -/

namespace Cursor

theorem lexeme_tokenHere_ne {place : Cursor} (more : place.tokenHere.1.kind ≠ .endOfText) :
    place.tokenHere.1.lexeme ≠ "" := by
  unfold tokenHere at more ⊢
  split
  · next nothing =>
    rw [nothing] at more
    exact absurd rfl more
  · next first rest found =>
    have taken := (Lexeme.cut_splits first rest).taken_ne_nil
    simpa using taken

theorem collect_ends (seen : Array Token) (cursor : Cursor) :
    ∃ front ending, (cursor.collect seen).1.toList = seen.toList ++ (front ++ [ending]) ∧
      ending.kind = .endOfText ∧
      ∀ token ∈ front, token.kind ≠ .endOfText ∧ token.lexeme ≠ "" := by
  induction seen, cursor using collect.induct with
  | case1 seen cursor token after read ended =>
    refine ⟨[], token, ?_, ended, by simp⟩
    rw [collect]
    simp [read, ended]
  | case2 seen cursor token after read goesOn ih =>
    rcases ih with ⟨front, ending, collected, atEnd, before⟩
    refine ⟨token :: front, ending, ?_, atEnd, ?_⟩
    · rw [collect]
      simp [read, goesOn, collected]
    · intro other present
      rcases List.mem_cons.mp present with rfl | later
      · have here : cursor.next.1 = other := by rw [read]
        refine ⟨goesOn, ?_⟩
        rw [← here] at goesOn ⊢
        exact lexeme_tokenHere_ne goesOn
      · exact before other later

end Cursor

theorem tokens_end (text : String) :
    ∃ front ending, tokens text = front ++ [ending] ∧ ending.kind = .endOfText ∧
      ∀ token ∈ front, token.kind ≠ .endOfText ∧ token.lexeme ≠ "" := by
  simpa [tokens] using Cursor.collect_ends #[] (.start text)

/-- A text that compiles is a program of the grammar, and its script is that program written. -/
theorem compile_read {text : String} {script : Function} (compiled : compile text = .ok script) :
    ∃ program, Grammar.Program (tokens text) program ∧
      ∃ stops, program.WritesScript script stops := by
  rcases tokens_end text with ⟨front, ending, tokensEq, atEnd, before⟩
  rw [compile, tokensEq] at compiled
  rw [tokensEq]
  exact Compile.compileTokens_read atEnd (fun token present => (before token present).1) compiled

end StackScript
