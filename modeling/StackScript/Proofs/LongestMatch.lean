import StackScript.Proofs.Tiling

/-!
# The longest match

What the tokens of the language look like, as patterns of characters. Behind blanks and comments
scanning takes the longest part of the text that some pattern matches. Where nothing matches, an
open string takes the rest of the text, and any other character is an error by itself.
-/

namespace StackScript

namespace Lexeme

variable {first c : Char} {more part : List Char} {alone together : Token.Kind}

def IsDigit (c : Char) : Prop :=
  '0' ≤ c ∧ c ≤ '9'

def IsLetter (c : Char) : Prop :=
  'A' ≤ c ∧ c ≤ 'Z' ∨ 'a' ≤ c ∧ c ≤ 'z' ∨ c = '_'

/-- The tokens that are single characters. -/
def marks : List (Char × Token.Kind) :=
  [('(', .leftParen), (')', .rightParen), ('{', .leftBrace), ('}', .rightBrace), (',', .comma),
    ('.', .dot), ('-', .minus), ('+', .plus), (';', .semicolon), ('/', .slash), ('*', .star)]

/-- The characters that are one token alone and another one with an equals sign behind them. -/
def signs : List (Char × Token.Kind × Token.Kind) :=
  [('!', .bang, .bangEqual), ('=', .equal, .equalEqual), ('<', .less, .lessEqual),
    ('>', .greater, .greaterEqual)]

/-- Which characters make a token of which kind. -/
inductive Pattern : Token.Kind → List Char → Prop where
  | mark {c : Char} {kind : Token.Kind} (listed : (c, kind) ∈ marks) : Pattern kind [c]
  | alone {c : Char} {alone together : Token.Kind} (listed : (c, alone, together) ∈ signs) :
      Pattern alone [c]
  | together {c : Char} {alone together : Token.Kind} (listed : (c, alone, together) ∈ signs) :
      Pattern together [c, '=']
  | string {body : List Char} (closed : '"' ∉ body) : Pattern .string ('"' :: body ++ ['"'])
  | whole {first : Char} {more : List Char} (digits : ∀ c ∈ first :: more, IsDigit c) :
      Pattern .number (first :: more)
  | fraction {first second : Char} {more others : List Char}
      (digits : ∀ c ∈ first :: more, IsDigit c) (behind : ∀ c ∈ second :: others, IsDigit c) :
      Pattern .number (first :: more ++ '.' :: second :: others)
  | keyword (word : Keyword) : Pattern (.keyword word) word.spelling.toList
  | name {first : Char} {more : List Char} (starts : IsLetter first)
      (goesOn : ∀ c ∈ more, IsLetter c ∨ IsDigit c)
      (free : ∀ word : Keyword, word.spelling.toList ≠ first :: more) :
      Pattern .identifier (first :: more)

/-- Whether some pattern matches a part at the front of a text. -/
def Matches (text : List Char) : Prop :=
  ∃ kind part, Pattern kind part ∧ part <+: text

/-- Whether a token of this kind is what has to be taken off the front of a text. -/
structure Longest (kind : Token.Kind) (taken text : List Char) : Prop where
  front : taken <+: text
  matching : Matches text → Pattern kind taken ∧
    ∀ other part, Pattern other part → part <+: text → part.length ≤ taken.length
  openString : ¬Matches text → text.head? = some '"' →
    kind = .error .unterminatedString ∧ taken = text
  unexpected : ¬Matches text → text.head? ≠ some '"' →
    kind = .error .unexpectedCharacter ∧ ∃ c, taken = [c]

theorem isDigit_iff : c.isDigit = true ↔ IsDigit c := by
  simp [Char.isDigit, IsDigit, Char.le_def]

theorem isWordStart_iff : isWordStart c = true ↔ IsLetter c := by
  have classes : isWordStart c = (decide (c.val ≥ 'A'.val ∧ c.val ≤ 'Z'.val) ||
      decide (c.val ≥ 'a'.val) && decide (c.val ≤ 'z'.val) || c == '_') := rfl
  simp only [classes, IsLetter, Bool.or_eq_true, Bool.and_eq_true, decide_eq_true_eq, beq_iff_eq,
    Char.le_def, ge_iff_le, or_assoc]

theorem isWordChar_iff : isWordChar c = true ↔ IsLetter c ∨ IsDigit c := by
  rw [← isWordStart_iff, ← isDigit_iff, isWordChar, isWordStart]
  simp only [Bool.or_eq_true]
  exact or_right_comm

/-! ## What is taken matches, or nothing does -/

theorem pattern_withEqual (listed : (first, alone, together) ∈ signs) (rest : List Char) :
    Pattern (withEqual alone together first rest).kind
      (withEqual alone together first rest).taken := by
  unfold withEqual
  split
  · exact .together listed
  · exact .alone listed

theorem pattern_digits (digit : first.isDigit = true) (rest : List Char) :
    Pattern (digits first rest).kind (digits first rest).taken := by
  have run {start : Char} (isDigit : start.isDigit = true) (chars : List Char) :
      ∀ c ∈ start :: chars.takeWhile Char.isDigit, IsDigit c := by
    intro c present
    rcases List.mem_cons.mp present with rfl | later
    · exact isDigit_iff.mp isDigit
    · exact isDigit_iff.mp (List.all_eq_true.mp List.all_takeWhile c later)
  unfold digits
  split
  · split
    · next following => exact .fraction (run digit _) (run following _)
    · exact .whole (run digit _)
  · exact .whole (run digit _)

theorem pattern_word (letter : isWordStart first = true) (rest : List Char) :
    Pattern (word first rest).kind (word first rest).taken := by
  have goesOn : ∀ c ∈ rest.takeWhile isWordChar, IsLetter c ∨ IsDigit c :=
    fun c present => isWordChar_iff.mp (List.all_eq_true.mp List.all_takeWhile c present)
  simp only [word, wordKind]
  split
  · next keyword found =>
    have spelled := Keyword.ofWord?_eq_some_iff.mp found
    rw [← String.toList_ofList (l := first :: rest.takeWhile isWordChar), ← spelled]
    exact .keyword keyword
  · next free =>
    refine .name (isWordStart_iff.mp letter) goesOn fun keyword spelled => ?_
    rw [← spelled, String.ofList_toList, Keyword.ofWord?_spelling] at free
    cases free

/-- A token is cut off by its pattern, or it is an error of one of the two sorts. -/
theorem cut_cases (first : Char) (rest : List Char) :
    Pattern (cut first rest).kind (cut first rest).taken ∨
      (first = '"' ∧ (cut first rest).kind = .error .unterminatedString ∧
        (cut first rest).taken = first :: rest) ∨
      (first ≠ '"' ∧ (cut first rest).kind = .error .unexpectedCharacter ∧
        (cut first rest).taken = [first]) := by
  unfold cut
  split
  case h_12 | h_13 | h_14 | h_15 => exact .inl (pattern_withEqual (by decide) rest)
  case h_16 =>
    have whole : rest.takeWhile (· != '"') ++ rest.dropWhile (· != '"') = rest :=
      List.takeWhile_append_dropWhile
    unfold quoted
    split
    · next unclosed =>
      rw [unclosed, List.append_nil] at whole
      exact .inr (.inl ⟨rfl, rfl, by rw [whole]⟩)
    · next quote after closed =>
      have isQuote := List.head?_dropWhile_not (· != '"') rest
      rw [closed] at isQuote
      have quoteEq : quote = '"' := by simpa using isQuote
      subst quoteEq
      refine .inl (.string fun present => ?_)
      simpa using List.all_eq_true.mp List.all_takeWhile '"' present
  case h_17 =>
    split
    · next digit => exact .inl (pattern_digits digit rest)
    · split
      · next letter => exact .inl (pattern_word letter rest)
      · exact .inr (.inr ⟨‹_›, rfl, rfl⟩)
  all_goals exact .inl (.mark (by simp [single, marks]))

/-! ## No match is longer -/

theorem cut_of_digit (digit : first.isDigit = true) (rest : List Char) :
    cut first rest = digits first rest := by
  unfold cut
  split
  case h_17 => rw [if_pos digit]
  all_goals exact absurd digit (by decide)

theorem cut_of_letter (letter : isWordStart first = true) (rest : List Char) :
    cut first rest = word first rest := by
  have noDigit : first.isDigit = false := by
    cases digit : first.isDigit with
    | false => rfl
    | true =>
      have bound := (isDigit_iff.mp digit).2
      rcases isWordStart_iff.mp letter with upper | lower | rfl
      · exact absurd (Char.le_trans upper.1 bound) (by decide)
      · exact absurd (Char.le_trans lower.1 bound) (by decide)
      · exact absurd bound (by decide)
  unfold cut
  split
  case h_17 => rw [if_neg (by simp [noDigit]), if_pos letter]
  all_goals exact absurd letter (by decide)

theorem length_le_takeWhile {holds : Char → Bool} (all : ∀ c ∈ part, holds c = true)
    (after : List Char) : part.length ≤ ((part ++ after).takeWhile holds).length := by
  rw [List.takeWhile_append_of_pos all, List.length_append]
  exact Nat.le_add_right _ _

/-- Whether what is cut off matches a pattern and is at least as long as a part. -/
structure Cut.Reaches (cut : Cut) (part : List Char) : Prop where
  pattern : Pattern cut.kind cut.taken
  le : part.length ≤ cut.taken.length

theorem cut_of_sign (listed : (c, alone, together) ∈ signs) (rest : List Char) :
    cut c rest = withEqual alone together c rest := by
  simp only [signs, List.mem_cons, Prod.mk.injEq, List.not_mem_nil, or_false] at listed
  rcases listed with ⟨rfl, rfl, rfl⟩ | ⟨rfl, rfl, rfl⟩ | ⟨rfl, rfl, rfl⟩ | ⟨rfl, rfl, rfl⟩ <;> rfl

theorem cut_reaches_whole (run : ∀ c ∈ first :: more, IsDigit c) (after : List Char) :
    (cut first (more ++ after)).Reaches (first :: more) := by
  have digit : first.isDigit = true := isDigit_iff.mpr (run first (.head _))
  have le : more.length ≤ ((more ++ after).takeWhile Char.isDigit).length :=
    length_le_takeWhile (fun c present => isDigit_iff.mpr (run c (.tail _ present))) after
  rw [cut_of_digit digit]
  refine ⟨pattern_digits digit _, ?_⟩
  unfold digits
  split
  · split
    · simp only [List.length_cons, List.length_append]
      omega
    · simpa using le
  · simpa using le

theorem cut_reaches_fraction {second : Char} {others : List Char}
    (run : ∀ c ∈ first :: more, IsDigit c) (behind : ∀ c ∈ second :: others, IsDigit c)
    (after : List Char) :
    (cut first (more ++ '.' :: second :: others ++ after)).Reaches
      (first :: more ++ '.' :: second :: others) := by
  have digit : first.isDigit = true := isDigit_iff.mpr (run first (.head _))
  have following : second.isDigit = true := isDigit_iff.mpr (behind second (.head _))
  have digits : ∀ c ∈ more, c.isDigit = true :=
    fun c present => isDigit_iff.mpr (run c (.tail _ present))
  have le : others.length ≤ ((others ++ after).takeWhile Char.isDigit).length :=
    length_le_takeWhile (fun c present => isDigit_iff.mpr (behind c (.tail _ present))) after
  have pattern := pattern_digits digit (more ++ '.' :: second :: others ++ after)
  rw [cut_of_digit digit]
  refine ⟨pattern, ?_⟩
  have point : Char.isDigit '.' = false := rfl
  simp only [Lexeme.digits, List.append_assoc, List.cons_append,
    List.takeWhile_append_of_pos digits, List.dropWhile_append_of_pos digits,
    List.takeWhile_cons, List.dropWhile_cons, point, following, if_true, Bool.false_eq_true,
    if_false, List.append_nil, List.length_cons, List.length_append]
  omega

theorem cut_reaches_word (starts : IsLetter first) (goesOn : ∀ c ∈ more, IsLetter c ∨ IsDigit c)
    (after : List Char) : (cut first (more ++ after)).Reaches (first :: more) := by
  have letter : isWordStart first = true := isWordStart_iff.mpr starts
  have le := length_le_takeWhile (fun c present => isWordChar_iff.mpr (goesOn c present)) after
  rw [cut_of_letter letter]
  exact ⟨pattern_word letter _, Nat.succ_le_succ le⟩

theorem spelling_word (word : Keyword) : ∃ first more, word.spelling.toList = first :: more ∧
    isWordStart first = true ∧ more.all isWordChar = true := by
  cases word <;> exact ⟨_, _, rfl, rfl, rfl⟩

theorem Pattern.reached {kind : Token.Kind} (pattern : Pattern kind part) {rest : List Char}
    (front : part <+: first :: rest) : (cut first rest).Reaches part := by
  rcases front with ⟨after, frontEq⟩
  cases pattern with
  | mark listed =>
    rcases List.cons.inj frontEq with ⟨rfl, rfl⟩
    simp only [marks, List.mem_cons, Prod.mk.injEq, List.not_mem_nil, or_false] at listed
    rcases listed with ⟨rfl, -⟩ | ⟨rfl, -⟩ | ⟨rfl, -⟩ | ⟨rfl, -⟩ | ⟨rfl, -⟩ | ⟨rfl, -⟩ |
      ⟨rfl, -⟩ | ⟨rfl, -⟩ | ⟨rfl, -⟩ | ⟨rfl, -⟩ | ⟨rfl, -⟩
    all_goals exact ⟨.mark (by simp [cut, single, marks]), Nat.le_refl _⟩
  | alone listed =>
    rcases List.cons.inj frontEq with ⟨rfl, rfl⟩
    rw [cut_of_sign listed]
    refine ⟨pattern_withEqual listed _, ?_⟩
    unfold withEqual
    split <;> simp
  | together listed =>
    rcases List.cons.inj frontEq with ⟨rfl, rfl⟩
    rw [cut_of_sign listed]
    exact ⟨pattern_withEqual listed _, Nat.le_refl _⟩
  | @string body closed =>
    obtain ⟨rfl, restEq⟩ : '"' = first ∧ body ++ '"' :: after = rest := by simpa using frontEq
    have inside : ∀ c ∈ body, (c != '"') = true := by
      intro c present
      exact bne_iff_ne.mpr fun isQuote => closed (isQuote ▸ present)
    have cutEq : cut '"' rest = ⟨.string, '"' :: body ++ ['"'], after⟩ := by
      rw [← restEq]
      simp [cut, quoted, List.takeWhile_append_of_pos inside, List.dropWhile_append_of_pos inside]
    rw [cutEq]
    exact ⟨.string closed, Nat.le_refl _⟩
  | whole digits =>
    rcases List.cons.inj frontEq with ⟨rfl, rfl⟩
    exact cut_reaches_whole digits after
  | fraction digits behind =>
    rcases List.cons.inj frontEq with ⟨rfl, rfl⟩
    exact cut_reaches_fraction digits behind after
  | keyword word =>
    rcases spelling_word word with ⟨start, more, spelled, starts, goesOn⟩
    rw [spelled] at frontEq ⊢
    rcases List.cons.inj frontEq with ⟨rfl, rfl⟩
    exact cut_reaches_word (isWordStart_iff.mp starts)
      (fun c present => isWordChar_iff.mp (List.all_eq_true.mp goesOn c present)) after
  | name starts goesOn _ =>
    rcases List.cons.inj frontEq with ⟨rfl, rfl⟩
    exact cut_reaches_word starts goesOn after

theorem cut_longest (first : Char) (rest : List Char) :
    Longest (cut first rest).kind (cut first rest).taken (first :: rest) := by
  refine ⟨⟨_, (cut_splits first rest).append_rest⟩, ?_, ?_, ?_⟩
  · rintro ⟨kind, part, pattern, front⟩
    exact ⟨(pattern.reached front).pattern, fun _ _ other here => (other.reached here).le⟩
  · intro unmatched isQuote
    rcases cut_cases first rest with pattern | ⟨_, unclosed⟩ | ⟨notQuote, _⟩
    · exact absurd ⟨_, _, pattern, _, (cut_splits first rest).append_rest⟩ unmatched
    · exact unclosed
    · exact absurd (Option.some.inj isQuote) notQuote
  · intro unmatched notQuote
    rcases cut_cases first rest with pattern | ⟨isQuote, _⟩ | ⟨_, isError, takenEq⟩
    · exact absurd ⟨_, _, pattern, _, (cut_splits first rest).append_rest⟩ unmatched
    · exact absurd (congrArg some isQuote) notQuote
    · exact ⟨isError, first, takenEq⟩

end Lexeme

namespace Cursor

/-- Whether a text starts neither with a blank or a line end nor with a comment. -/
def NoGap (text : List Char) : Prop :=
  (∀ c ∈ text.head?, c ∉ [' ', '\t', '\r', '\n']) ∧ ¬['/', '/'] <+: text

theorem skipGap_noGap (inComment : Bool) (offset line : Nat) (chars : List Char) :
    NoGap (skipGap inComment offset line chars).rest := by
  induction chars generalizing inComment offset line with
  | nil => simp [skipGap, NoGap]
  | cons c rest ih =>
    unfold skipGap
    split
    · exact ih ..
    · next noEnd =>
      split
      · exact ih ..
      · next noBlank =>
        split
        · exact ih ..
        · next noComment =>
          simp only [Bool.or_eq_true, not_or, isGap, beq_iff_eq] at noEnd noBlank
          constructor
          · simp [noEnd, noBlank]
          · rintro ⟨after, isComment⟩
            rcases List.cons.inj isComment with ⟨rfl, rfl⟩
            exact noComment rfl

end Cursor

/--
From any place of a text scanning skips all blanks and comments. Then it is at the end of the
text, or it takes the longest match there and goes on behind it.
-/
theorem next_longest (before chars : List Char) :
    ∃ gap rest, chars = gap ++ rest ∧ Gap rest gap ∧ Cursor.NoGap rest ∧
      ((rest = [] ∧ (Cursor.behind before chars).next =
        (.atEnd (bytes (before ++ gap)) (lineBehind (before ++ gap)), .behind (before ++ gap) [])) ∨
      ∃ kind taken after, rest = taken ++ after ∧ Lexeme.Longest kind taken rest ∧
        (Cursor.behind before chars).next =
          (⟨kind, String.ofList taken, bytes (before ++ gap), lineBehind (before ++ gap)⟩,
            .behind (before ++ gap ++ taken) after)) := by
  rcases Cursor.atToken_behind before chars with ⟨gap, rest, rfl, isGap, found⟩
  have noGap : Cursor.NoGap (Cursor.behind before (gap ++ rest)).atToken.rest :=
    Cursor.skipGap_noGap ..
  rw [found] at noGap
  refine ⟨gap, rest, rfl, isGap, noGap, ?_⟩
  rw [Cursor.next, found]
  cases rest with
  | nil => exact .inl ⟨rfl, rfl⟩
  | cons first rest =>
    refine .inr ⟨_, _, _, (Lexeme.cut_splits first rest).append_rest.symm,
      Lexeme.cut_longest first rest, ?_⟩
    simp [Cursor.behind, Cursor.tokenHere, Token.length, lineBehind_append (before ++ gap), bytes,
      -List.append_assoc]

end StackScript
