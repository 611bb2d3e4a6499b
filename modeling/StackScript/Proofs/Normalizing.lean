import Mathlib.Data.List.TakeWhile
import StackScript.Proofs.LongestMatch

/-!
# Texts with single blanks between their tokens

A token is read in the same way wherever it stands. So the characters of the tokens of a text, with
a blank between each two of them, are a text with the same tokens.
-/

namespace StackScript

namespace Lexeme

/-! ## A token by itself -/

/-- Whether a part that starts with a character is cut off as a whole where the text ends. -/
def Cut.Alone (part : Cut) (first : Char) (again : List Char → Cut) : Prop :=
  ∀ more, part.taken = first :: more → again more = ⟨part.kind, first :: more, []⟩

theorem takeWhile_again (holds : Char → Bool) (chars : List Char) :
    (chars.takeWhile holds).takeWhile holds = chars.takeWhile holds ∧
      (chars.takeWhile holds).dropWhile holds = [] := by
  have all : ∀ c ∈ chars.takeWhile holds, holds c = true := List.all_eq_true.mp List.all_takeWhile
  exact ⟨List.takeWhile_eq_self_iff.mpr all, List.dropWhile_eq_nil_iff.mpr all⟩

variable (first : Char) (rest : List Char)

theorem single_alone (kind : Token.Kind) :
    (single kind first rest).Alone first (single kind first) := by
  intro more takenEq
  cases takenEq
  rfl

theorem withEqual_alone (alone together : Token.Kind) :
    (withEqual alone together first rest).Alone first (withEqual alone together first) := by
  unfold Cut.Alone withEqual
  split
  · intro more takenEq
    cases takenEq
    rfl
  · intro more takenEq
    cases takenEq
    rfl

theorem quoted_alone : (quoted first rest).Alone first (quoted first) := by
  intro more takenEq
  unfold quoted at takenEq ⊢
  cases dropped : rest.dropWhile (· != '"') with
  | nil =>
    have whole : rest.takeWhile (· != '"') ++ rest.dropWhile (· != '"') = rest :=
      List.takeWhile_append_dropWhile
    rw [dropped, List.append_nil] at whole
    rw [dropped, whole] at takenEq
    cases takenEq
    simp [dropped, whole]
  | cons quote after =>
    have isQuote := List.head?_dropWhile_not (· != '"') rest
    rw [dropped] at takenEq isQuote
    cases takenEq
    have stops : (quote != '"') = false := by simpa using isQuote
    rcases @takeWhile_stop (· != '"') quote stops (rest.takeWhile (· != '"')) [] with ⟨taken, left⟩
    rcases takeWhile_again (· != '"') rest with ⟨takenAgain, nothing⟩
    simp [taken, left, takenAgain, nothing]

theorem digits_alone : (digits first rest).Alone first (digits first) := by
  rcases takeWhile_again Char.isDigit rest with ⟨taken, nothing⟩
  have whole : digits first (rest.takeWhile Char.isDigit) =
      ⟨.number, first :: rest.takeWhile Char.isDigit, []⟩ := by
    simp [digits, taken, nothing]
  intro more takenEq
  unfold digits at takenEq
  split at takenEq
  · next digit after point =>
    split at takenEq
    · next following =>
      cases takenEq
      have stops : Char.isDigit '.' = false := rfl
      rcases takeWhile_stop stops (rest.takeWhile Char.isDigit)
        (digit :: after.takeWhile Char.isDigit) with ⟨takenHere, left⟩
      rcases takeWhile_again Char.isDigit after with ⟨takenAfter, nothingAfter⟩
      simp [digits, point, following, takenHere, left, taken, nothing, takenAfter, nothingAfter]
    · next other =>
      cases takenEq
      rw [whole]
      simp [digits, point, other]
  · next noFraction =>
    cases takenEq
    rw [whole]
    simp [digits]

theorem word_alone : (word first rest).Alone first (word first) := by
  intro more takenEq
  cases takenEq
  rcases takeWhile_again isWordChar rest with ⟨taken, nothing⟩
  simp [word, taken, nothing]

theorem cut_alone : (cut first rest).Alone first (cut first) := by
  unfold Cut.Alone cut
  split
  case h_12 | h_13 | h_14 | h_15 => exact withEqual_alone _ _ _ _
  case h_16 => exact quoted_alone _ _
  case h_17 =>
    split
    · exact digits_alone _ _
    · split
      · exact word_alone _ _
      · exact single_alone _ _ _
  all_goals exact single_alone _ _ _

theorem Pattern.ne_error {kind : Token.Kind} {part : List Char} (pattern : Pattern kind part)
    (reason : ScanError) : kind ≠ .error reason := by
  rintro rfl
  cases pattern with
  | mark listed => simp [marks] at listed
  | alone listed => simp [signs] at listed
  | together listed => simp [signs] at listed

theorem exists_taken : ∃ more, (cut first rest).taken = first :: more := by
  have splits := cut_splits first rest
  cases taken : (cut first rest).taken with
  | nil => exact absurd taken splits.taken_ne_nil
  | cons c more =>
    have whole := splits.append_rest
    rw [taken] at whole
    exact ⟨more, by rw [(List.cons.inj whole).1]⟩

theorem rest_of_unterminated (isOpen : (cut first rest).kind = .error .unterminatedString) :
    (cut first rest).rest = [] := by
  have splits := (cut_splits first rest).append_rest
  rcases cut_cases first rest with pattern | ⟨_, _, takenEq⟩ | ⟨_, isError, _⟩
  · exact absurd isOpen (pattern.ne_error _)
  · rw [takenEq] at splits
    exact List.append_right_eq_self.mp splits
  · rw [isOpen] at isError
    cases isError

end Lexeme

namespace Cursor

theorem NoGap.behindGap_eq {text : List Char} (noGap : NoGap text) :
    behindGap false text = text := by
  cases text with
  | nil => rfl
  | cons c rest =>
    rcases noGap with ⟨noBlank, noComment⟩
    simp only [List.head?_cons, Option.mem_some_iff, forall_eq', List.mem_cons, List.not_mem_nil,
      or_false, not_or] at noBlank
    rw [behindGap_cons, if_neg (by simpa using noBlank.2.2.2), if_neg (by simp [isGap, noBlank]),
      if_neg]
    simp only [Bool.and_eq_true, beq_iff_eq, not_and]
    rintro rfl isSlash
    rcases List.head?_eq_some_iff.mp isSlash with ⟨more, rfl⟩
    exact noComment ⟨more, rfl⟩

theorem NoGap.of_append {c : Char} {taken left after : List Char}
    (noGap : NoGap (c :: taken ++ left)) (blank : ∀ c ∈ after.head?, c = ' ') :
    NoGap (c :: taken ++ after) := by
  refine ⟨noGap.1, ?_⟩
  rintro ⟨more, isComment⟩
  cases taken with
  | nil =>
    have afterEq : '/' :: more = after := (List.cons.inj isComment).2
    rw [← afterEq] at blank
    exact absurd (blank '/' rfl) (by decide)
  | cons d taken =>
    simp only [List.cons_append, List.nil_append, List.cons.injEq] at isComment
    rcases isComment with ⟨rfl, rfl, _⟩
    exact noGap.2 ⟨_, rfl⟩

end Cursor

/-! ## Tokens with blanks between them -/

/-- The characters of tokens, with a blank in front of each token. -/
def withBlanks (tokens : List Token) : List Char :=
  tokens.flatMap fun token => ' ' :: token.lexeme.toList

@[simp] theorem withBlanks_nil : withBlanks [] = [] :=
  rfl

@[simp] theorem withBlanks_cons (token : Token) (tokens : List Token) :
    withBlanks (token :: tokens) = ' ' :: (token.lexeme.toList ++ withBlanks tokens) :=
  rfl

theorem withBlanks_head (tokens : List Token) : ∀ c ∈ (withBlanks tokens).head?, c = ' ' := by
  cases tokens <;> simp

namespace Scans

variable {chars : List Char} {tokens : List Token}

theorem blank_iff : Scans (' ' :: chars) tokens ↔ Scans chars tokens := by
  have behindEq : Cursor.behindGap false (' ' :: chars) = Cursor.behindGap false chars :=
    Cursor.behindGap_cons ..
  constructor
  · intro scans
    cases scans with
    | done nothing same => exact .done (behindEq ▸ nothing) same
    | more behind kindEq lexemeEq scans => exact .more (behindEq ▸ behind) kindEq lexemeEq scans
  · intro scans
    cases scans with
    | done nothing same => exact .done (behindEq.trans nothing) same
    | more behind kindEq lexemeEq scans =>
      exact .more (behindEq.trans behind) kindEq lexemeEq scans

theorem ne_nil (scans : Scans chars tokens) : tokens ≠ [] := by
  cases scans <;> simp

theorem spaced (scans : Scans chars tokens) : Scans (withBlanks tokens.dropLast) tokens := by
  induction scans with
  | done nothing same => exact .done rfl same
  | @more chars rest first token tokens behind kindEq lexemeEq scans ih =>
    rcases Lexeme.exists_taken first rest with ⟨more, takenEq⟩
    have alone := Lexeme.cut_alone first rest more takenEq
    have noGap : Cursor.NoGap (first :: rest) := behind ▸ Cursor.skipGap_noGap ..
    rw [← (Lexeme.cut_splits first rest).append_rest, takenEq] at noGap
    have cutEq : Lexeme.cut first (more ++ withBlanks tokens.dropLast) =
        ⟨(Lexeme.cut first rest).kind, first :: more, withBlanks tokens.dropLast⟩ := by
      cases front : tokens.dropLast with
      | nil => simpa using alone
      | cons next others =>
        have closed : (Lexeme.cut first rest).kind ≠ .error .unterminatedString := by
          intro isOpen
          rw [Lexeme.rest_of_unterminated first rest isOpen] at scans
          cases scans with
          | done => cases front
          | more behind => cases behind
        have broken := Lexeme.cut_break first (next.lexeme.toList ++ withBlanks others)
          (.inl rfl) more (by rwa [alone])
        simpa [Lexeme.Cut.before, alone] using broken
    have here := (noGap.of_append (withBlanks_head tokens.dropLast)).behindGap_eq
    rw [List.cons_append] at here
    rw [List.dropLast_cons_of_ne_nil scans.ne_nil, withBlanks_cons, lexemeEq, takenEq,
      String.toList_ofList, List.cons_append]
    refine blank_iff.mpr (.more here ?_ ?_ ?_)
    · rw [cutEq, kindEq]
    · rw [cutEq, lexemeEq, takenEq]
    · rw [cutEq]
      exact ih

end Scans

/-- The characters of the tokens of a text, with single blanks between them. -/
def normalize (text : String) : String :=
  " ".intercalate ((tokens text).dropLast.map Token.lexeme)

theorem cons_intercalate {tokens : List Token} (some : tokens ≠ []) :
    ' ' :: (" ".intercalate (tokens.map Token.lexeme)).toList = withBlanks tokens := by
  induction tokens with
  | nil => exact absurd rfl some
  | cons token others ih =>
    cases others with
    | nil => simp
    | cons next others =>
      rw [List.map_cons, List.map_cons, String.intercalate_cons_cons, ← List.map_cons,
        withBlanks_cons, ← ih (by simp)]
      simp

theorem normalize_scans (text : String) : Scans (normalize text).toList (tokens text) := by
  have scans := (tokens_scans text).spaced
  cases front : (tokens text).dropLast with
  | nil =>
    rw [front] at scans
    simpa [normalize, front] using scans
  | cons token others =>
    rw [← cons_intercalate (by simp [front])] at scans
    exact Scans.blank_iff.mp scans

/--
The tokens of a text, joined with single blanks, make up a text with the same tokens, error tokens
included, and joining those in turn changes nothing.
-/
theorem tokens_normalize (text : String) :
    (tokens (normalize text)).map (fun token => (token.kind, token.lexeme)) =
        (tokens text).map (fun token => (token.kind, token.lexeme)) ∧
      normalize (normalize text) = normalize text := by
  have same := (tokens_scans (normalize text)).unique (normalize_scans text)
  have pairsEq : (tokens (normalize text)).map (fun token => (token.kind, token.lexeme)) =
      (tokens text).map fun token => (token.kind, token.lexeme) := by
    rw [← List.forall₂_eq_eq_eq, List.forall₂_map_left_iff, List.forall₂_map_right_iff]
    exact same.imp fun token twin same => Prod.ext same.kind_eq same.lexeme_eq
  refine ⟨pairsEq, ?_⟩
  have lexemesEq : (tokens (normalize text)).map Token.lexeme = (tokens text).map Token.lexeme := by
    simpa [Function.comp_def] using congrArg (List.map Prod.snd) pairsEq
  calc normalize (normalize text)
      = " ".intercalate ((tokens (normalize text)).map Token.lexeme).dropLast := by
        rw [normalize, List.map_dropLast]
    _ = normalize text := by rw [lexemesEq, normalize, List.map_dropLast]

end StackScript
