import Mathlib.Data.List.Forall2
import StackScript.Token.Scan

/-!
# The tokens of texts that are joined by line ends

No token but a string goes on behind a line end, and a comment ends there. So the tokens of two
texts with a line end between them are those of the first, without the one at its end, and those of
the second, if the first leaves no string open.
-/

namespace StackScript

/-- Whether two tokens differ in their places only. -/
structure Token.Same (token other : Token) : Prop where
  kind_eq : token.kind = other.kind
  lexeme_eq : token.lexeme = other.lexeme

namespace Lexeme

/-- The same part of a text that goes on further. -/
def Cut.before (part : Cut) (more : List Char) : Cut :=
  { part with rest := part.rest ++ more }

variable {holds : Char → Bool} {chars : List Char}

theorem takeWhile_before (stops : chars.dropWhile holds ≠ []) (more : List Char) :
    (chars ++ more).takeWhile holds = chars.takeWhile holds ∧
      (chars ++ more).dropWhile holds = chars.dropWhile holds ++ more := by
  induction chars with
  | nil => exact absurd rfl stops
  | cons first rest ih =>
    cases here : holds first with
    | true =>
      rw [List.dropWhile_cons_of_pos here] at stops
      rcases ih stops with ⟨taken, dropped⟩
      simp [here, taken, dropped]
    | false => simp [here]

theorem takeWhile_stop {stop : Char} (stops : holds stop = false) (chars more : List Char) :
    (chars ++ stop :: more).takeWhile holds = chars.takeWhile holds ∧
      (chars ++ stop :: more).dropWhile holds = chars.dropWhile holds ++ stop :: more := by
  induction chars with
  | nil => simp [stops]
  | cons first rest ih =>
    rcases ih with ⟨taken, dropped⟩
    cases here : holds first with
    | true => simp [here, taken, dropped]
    | false => simp [here]

/-- The characters that no token but a string goes on behind. -/
def IsBreak (stop : Char) : Prop :=
  stop = ' ' ∨ stop = '\n'

variable {stop : Char}

theorem IsBreak.isDigit_eq_false (breaks : IsBreak stop) : stop.isDigit = false := by
  rcases breaks with rfl | rfl <;> rfl

theorem IsBreak.isWordChar_eq_false (breaks : IsBreak stop) : isWordChar stop = false := by
  rcases breaks with rfl | rfl <;> rfl

variable (first : Char) (more : List Char)

theorem withEqual_other {alone together : Token.Kind} {next : Char} (other : next ≠ '=')
    (rest : List Char) :
    withEqual alone together first (next :: rest) = ⟨alone, [first], next :: rest⟩ := by
  unfold withEqual
  split
  · next same => exact absurd (List.cons.inj same).1 other
  · rfl

theorem withEqual_break (breaks : IsBreak stop) (alone together : Token.Kind) (chars : List Char) :
    withEqual alone together first (chars ++ stop :: more) =
      (withEqual alone together first chars).before (stop :: more) := by
  cases chars with
  | nil => exact withEqual_other first (by rcases breaks with rfl | rfl <;> decide) more
  | cons next rest =>
    by_cases equals : next = '='
    · rw [equals]
      rfl
    · rw [List.cons_append, withEqual_other first equals, withEqual_other first equals]
      rfl

theorem quoted_before (closed : chars.dropWhile (· != '"') ≠ []) :
    quoted first (chars ++ more) = (quoted first chars).before more := by
  rcases takeWhile_before closed more with ⟨taken, dropped⟩
  rcases List.exists_cons_of_ne_nil closed with ⟨quote, after, splits⟩
  simp [quoted, Cut.before, taken, dropped, splits]

theorem word_break (breaks : IsBreak stop) (chars : List Char) :
    word first (chars ++ stop :: more) = (word first chars).before (stop :: more) := by
  rcases takeWhile_stop breaks.isWordChar_eq_false chars more with ⟨taken, dropped⟩
  simp [word, Cut.before, taken, dropped]

theorem digits_break (breaks : IsBreak stop) (chars : List Char) :
    digits first (chars ++ stop :: more) = (digits first chars).before (stop :: more) := by
  rcases takeWhile_stop breaks.isDigit_eq_false chars more with ⟨taken, dropped⟩
  unfold digits
  rw [taken, dropped]
  generalize chars.dropWhile Char.isDigit = behind
  rcases behind with _ | ⟨point, _ | ⟨digit, after⟩⟩
  · rcases breaks with rfl | rfl <;> rfl
  · by_cases isPoint : point = '.'
    · subst isPoint
      rcases breaks with rfl | rfl <;> rfl
    · simp [isPoint, Cut.before]
  · by_cases isPoint : point = '.'
    · subst isPoint
      rw [List.cons_append, List.cons_append]
      change (if digit.isDigit = true then _ else _ : Cut) =
        (if digit.isDigit = true then _ else _ : Cut).before _
      by_cases isDigit : digit.isDigit = true
      · rcases takeWhile_stop breaks.isDigit_eq_false after more with ⟨takenAfter, droppedAfter⟩
        rw [if_pos isDigit, if_pos isDigit, takenAfter, droppedAfter]
        rfl
      · rw [if_neg isDigit, if_neg isDigit]
        rfl
    · simp [isPoint, Cut.before]

theorem cut_break (breaks : IsBreak stop) (chars : List Char)
    (closed : (cut first chars).kind ≠ .error .unterminatedString) :
    cut first (chars ++ stop :: more) = (cut first chars).before (stop :: more) := by
  unfold cut
  split
  case h_12 => exact withEqual_break _ _ breaks ..
  case h_13 => exact withEqual_break _ _ breaks ..
  case h_14 => exact withEqual_break _ _ breaks ..
  case h_15 => exact withEqual_break _ _ breaks ..
  case h_16 =>
    apply quoted_before
    intro unclosed
    apply closed
    change (quoted '"' chars).kind = _
    simp only [quoted, unclosed]
  case h_17 =>
    split
    · exact digits_break _ _ breaks _
    · split
      · exact word_break _ _ breaks _
      · rfl
  all_goals rfl

end Lexeme

namespace Cursor

/-- What is left of a text behind the blanks and comments at its front. -/
def behindGap (inComment : Bool) (chars : List Char) : List Char :=
  (skipGap inComment 0 1 chars).rest

theorem rest_skipGap (inComment : Bool) (offset line : Nat) (chars : List Char) :
    (skipGap inComment offset line chars).rest = behindGap inComment chars := by
  have places : ∀ offset line offset' line' : Nat,
      (skipGap inComment offset line chars).rest =
        (skipGap inComment offset' line' chars).rest := by
    induction chars generalizing inComment with
    | nil => intros; rfl
    | cons c rest ih =>
      intro offset line offset' line'
      unfold skipGap
      split
      · exact ih ..
      · split
        · exact ih ..
        · split
          · exact ih ..
          · rfl
  exact places ..

theorem behindGap_cons (inComment : Bool) (c : Char) (rest : List Char) :
    behindGap inComment (c :: rest) =
      if c == '\n' then behindGap false rest
      else if inComment || isGap c then behindGap inComment rest
      else if c == '/' && rest.head? == some '/' then behindGap true rest
      else c :: rest := by
  rw [behindGap, skipGap]
  split
  · exact rest_skipGap ..
  · split
    · exact rest_skipGap ..
    · split
      · exact rest_skipGap ..
      · rfl

theorem behindGap_lineEnd (inComment : Bool) (chars more : List Char) :
    behindGap inComment (chars ++ '\n' :: more) =
      if behindGap inComment chars = [] then behindGap false more
      else behindGap inComment chars ++ '\n' :: more := by
  induction chars generalizing inComment with
  | nil =>
    rw [List.nil_append, behindGap_cons]
    rfl
  | cons c rest ih =>
    have sameHead : ((rest ++ '\n' :: more).head? == some '/') = (rest.head? == some '/') := by
      cases rest with
      | nil => rfl
      | cons => rfl
    rw [List.cons_append, behindGap_cons, behindGap_cons, sameHead]
    split
    · exact ih false
    · split
      · exact ih inComment
      · split
        · exact ih true
        · simp

end Cursor

/-- The tokens of a text, up to their places. -/
inductive Scans : List Char → List Token → Prop where
  | done {chars : List Char} {ending : Token} (nothing : Cursor.behindGap false chars = [])
      (same : Token.Same ending .unread) : Scans chars [ending]
  | more {chars rest : List Char} {first : Char} {token : Token} {tokens : List Token}
      (behind : Cursor.behindGap false chars = first :: rest)
      (kindEq : token.kind = (Lexeme.cut first rest).kind)
      (lexemeEq : token.lexeme = String.ofList (Lexeme.cut first rest).taken)
      (scans : Scans (Lexeme.cut first rest).rest tokens) : Scans chars (token :: tokens)

theorem Lexeme.cut_kind_ne (first : Char) (rest : List Char) :
    (cut first rest).kind ≠ .endOfText := by
  have notWord : ∀ chars, wordKind chars ≠ .endOfText := by
    intro chars
    unfold wordKind
    split <;> simp
  unfold cut
  split
  case h_12 | h_13 | h_14 | h_15 =>
    unfold withEqual
    split <;> simp
  case h_16 =>
    unfold quoted
    split <;> simp
  case h_17 =>
    split
    · unfold digits
      split
      · split <;> simp
      · simp
    · split
      · exact notWord _
      · simp [single]
  all_goals simp [single]

namespace Scans

variable {chars more : List Char} {tokens others : List Token}

/-- A text has one list of tokens, up to their places. -/
theorem unique (scans : Scans chars tokens) (scansToo : Scans chars others) :
    List.Forall₂ Token.Same tokens others := by
  induction scans generalizing others with
  | done nothing same =>
    cases scansToo with
    | done _ sameToo =>
      exact .cons ⟨same.1.trans sameToo.1.symm, same.2.trans sameToo.2.symm⟩ .nil
    | more behind =>
      rw [nothing] at behind
      cases behind
  | more behind kindEq lexemeEq _ ih =>
    cases scansToo with
    | done nothing =>
      rw [nothing] at behind
      cases behind
    | more behindToo kindEqToo lexemeEqToo scansRest =>
      rw [behind] at behindToo
      cases behindToo
      exact .cons ⟨kindEq.trans kindEqToo.symm, lexemeEq.trans lexemeEqToo.symm⟩ (ih scansRest)

theorem lineEnd {front : List Token} {ending : Token} (scans : Scans chars (front ++ [ending]))
    (closed : ∀ token ∈ front, token.kind ≠ .error .unterminatedString)
    (scansMore : Scans more tokens) : Scans (chars ++ '\n' :: more) (front ++ tokens) := by
  generalize allEq : front ++ [ending] = all at scans
  induction scans generalizing front with
  | @done chars _ nothing _ =>
    have noFront : front = [] := by
      simpa using congrArg List.length allEq
    subst noFront
    have behind := Cursor.behindGap_lineEnd false chars more
    rw [if_pos nothing] at behind
    cases scansMore with
    | done nothingMore sameMore => exact .done (behind.trans nothingMore) sameMore
    | more behindMore kindEq lexemeEq scansRest =>
      exact .more (behind.trans behindMore) kindEq lexemeEq scansRest
  | @more chars rest first token others behind kindEq lexemeEq scansRest ih =>
    cases front with
    | nil =>
      rcases List.cons.inj allEq with ⟨_, noOthers⟩
      subst noOthers
      cases scansRest
    | cons head front =>
      rcases List.cons.inj allEq with ⟨rfl, restEq⟩
      have closedHere : (Lexeme.cut first rest).kind ≠ .error .unterminatedString := by
        rw [← kindEq]
        exact closed head List.mem_cons_self
      have cutEq := Lexeme.cut_break first more (.inr rfl) rest closedHere
      have behindAll := Cursor.behindGap_lineEnd false chars more
      rw [behind, if_neg (List.cons_ne_nil _ _), List.cons_append] at behindAll
      refine .more behindAll ?_ ?_ ?_
      · rw [cutEq]
        exact kindEq
      · rw [cutEq]
        exact lexemeEq
      · rw [cutEq]
        exact ih (fun token present => closed token (List.mem_cons_of_mem _ present)) restEq

end Scans

namespace Cursor

theorem collect_scans (seen : Array Token) (cursor : Cursor) :
    ∃ tokens, (cursor.collect seen).1.toList = seen.toList ++ tokens ∧
      Scans cursor.rest tokens := by
  induction seen, cursor using collect.induct with
  | case1 seen cursor token after read ended =>
    refine ⟨[token], ?_, ?_⟩
    · rw [collect]
      simp [read, ended]
    · have tokenEq : cursor.next.1 = token := by rw [read]
      cases place : cursor.atToken.rest with
      | nil =>
        have nothing : behindGap false cursor.rest = [] := (rest_skipGap ..).symm.trans place
        refine .done nothing ?_
        rw [← tokenEq, next, tokenHere, place]
        exact ⟨rfl, rfl⟩
      | cons first rest =>
        rw [← tokenEq, next, tokenHere, place] at ended
        exact absurd ended (Lexeme.cut_kind_ne first rest)
  | case2 seen cursor token after read goesOn ih =>
    rcases ih with ⟨tokens, collected, scans⟩
    refine ⟨token :: tokens, ?_, ?_⟩
    · rw [collect]
      simp [read, goesOn, collected]
    · cases place : cursor.atToken.rest with
      | nil =>
        have tokenEq : cursor.next.1 = token := by rw [read]
        rw [← tokenEq, next, tokenHere, place] at goesOn
        exact absurd rfl goesOn
      | cons first rest =>
        have behind : behindGap false cursor.rest = first :: rest :=
          (rest_skipGap ..).symm.trans place
        rw [next, tokenHere, place] at read
        rcases Prod.mk.inj read with ⟨rfl, rfl⟩
        exact .more behind rfl rfl scans

end Cursor

theorem tokens_scans (text : String) : Scans text.toList (tokens text) := by
  rcases Cursor.collect_scans #[] (.start text) with ⟨found, collected, scans⟩
  have tokensEq : tokens text = found := by
    simpa [tokens] using collected
  rw [tokensEq]
  exact scans

/-- The tokens of two texts with a line end between them, if the first leaves no string open. -/
theorem tokens_lineEnd {text : String} {front : List Token} {ending : Token}
    (tokensEq : tokens text = front ++ [ending])
    (closed : ∀ token ∈ front, token.kind ≠ .error .unterminatedString) (more : String) :
    List.Forall₂ Token.Same (front ++ tokens more) (tokens (text ++ "\n" ++ more)) := by
  have scans := tokens_scans text
  rw [tokensEq] at scans
  have joined := scans.lineEnd closed (tokens_scans more)
  apply joined.unique
  have whole := tokens_scans (text ++ "\n" ++ more)
  simpa using whole

end StackScript
