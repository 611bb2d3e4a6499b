import StackScript.Number.Literal
import StackScript.Proofs.Tiling

/-!
# How tokens are spelled

A token can be cut out of its text: it starts and ends between two characters. What a string holds
and what a number denotes can always be had from the characters of the token.
-/

namespace StackScript

variable {token : Token} {text : String}

/-- Whether what stands between two bytes of a text can be cut out of it. -/
structure IsSpan (text : String) (start stop : Nat) : Prop where
  le : start ≤ stop
  start_valid : (String.Pos.Raw.mk start).IsValid text
  stop_valid : (String.Pos.Raw.mk stop).IsValid text

theorem isSpan_append (before inside after : String) :
    IsSpan (before ++ inside ++ after) before.utf8ByteSize
      (before.utf8ByteSize + inside.utf8ByteSize) where
  le := Nat.le_add_right _ _
  start_valid :=
    String.Pos.Raw.isValid_iff_exists_append.mpr
      ⟨before, inside ++ after, String.append_assoc .., rfl⟩
  stop_valid :=
    String.Pos.Raw.isValid_iff_exists_append.mpr
      ⟨before ++ inside, after, rfl, by simp [String.rawEndPos, String.utf8ByteSize_append]⟩

namespace Number

variable {whole : List Char}

theorem span_digits (digits : isDigits whole = true) (rest : List Char) :
    (whole ++ rest).takeWhile Char.isDigit = whole ++ rest.takeWhile Char.isDigit ∧
      (whole ++ rest).dropWhile Char.isDigit = rest.dropWhile Char.isDigit := by
  simp only [isDigits, Bool.and_eq_true, List.all_eq_true] at digits
  exact ⟨List.takeWhile_append_of_pos digits.2, List.dropWhile_append_of_pos digits.2⟩

theorem isSome_parse?_digits (digits : isDigits whole = true) :
    (parse? (String.ofList whole)).isSome = true := by
  rcases span_digits digits [] with ⟨taken, dropped⟩
  rw [List.append_nil] at taken dropped
  simp [parse?, taken, dropped, digits]

theorem isSome_parse?_fraction {fraction : List Char} (digits : isDigits whole = true)
    (behind : isDigits fraction = true) :
    (parse? (String.ofList (whole ++ '.' :: fraction))).isSome = true := by
  rcases span_digits digits ('.' :: fraction) with ⟨taken, dropped⟩
  have noDigit : Char.isDigit '.' = false := rfl
  simp [parse?, taken, dropped, noDigit, digits, behind]

end Number

namespace Lexeme

variable {first : Char} {rest : List Char}

theorem cut_of_literal (first : Char) (rest : List Char) :
    ((cut first rest).kind = .string → cut first rest = quoted '"' rest) ∧
      ((cut first rest).kind = .number →
        first.isDigit = true ∧ cut first rest = digits first rest) := by
  have notWord : ∀ word, wordKind word ≠ .string ∧ wordKind word ≠ .number := by
    intro word
    unfold wordKind
    split <;> simp
  unfold cut
  split
  case h_12 | h_13 | h_14 | h_15 =>
    unfold withEqual
    split <;> simp
  case h_16 =>
    refine ⟨fun _ => rfl, ?_⟩
    unfold quoted
    split <;> simp
  case h_17 =>
    split
    · next digit =>
      refine ⟨?_, fun _ => ⟨digit, rfl⟩⟩
      unfold digits
      split
      · split <;> simp
      · simp
    · split
      · exact ⟨fun isString => absurd isString (notWord _).1,
          fun isNumber => absurd isNumber (notWord _).2⟩
      · simp [single]
  all_goals simp [single]

theorem taken_of_string (isString : (cut first rest).kind = .string) :
    ∃ body, (cut first rest).taken = '"' :: body ++ ['"'] := by
  have cutEq := (cut_of_literal first rest).1 isString
  rw [cutEq] at isString ⊢
  unfold quoted at isString ⊢
  split at isString
  · cases isString
  · next quote after closed =>
    have isQuote := List.head?_dropWhile_not (· != '"') rest
    rw [closed] at isQuote
    have quoteEq : quote = '"' := by simpa using isQuote
    exact ⟨_, by rw [quoteEq]⟩

theorem isSome_parse?_of_number (isNumber : (cut first rest).kind = .number) :
    (Number.parse? (String.ofList (cut first rest).taken)).isSome = true := by
  rcases (cut_of_literal first rest).2 isNumber with ⟨digit, cutEq⟩
  have run (start : Char) (isDigit : start.isDigit = true) (more : List Char) :
      Number.isDigits (start :: more.takeWhile Char.isDigit) = true := by
    simp [Number.isDigits, isDigit]
  rw [cutEq]
  unfold digits
  split
  · split
    · next following => exact Number.isSome_parse?_fraction (run _ digit _) (run _ following _)
    · exact Number.isSome_parse?_digits (run _ digit _)
  · exact Number.isSome_parse?_digits (run _ digit _)

end Lexeme

/-- Whether the characters of a token are those that its kind promises. -/
structure Token.Spelled (token : Token) : Prop where
  string : token.kind = .string → ∃ body, token.lexeme = "\"" ++ body ++ "\""
  number : token.kind = .number → (Number.parse? token.lexeme).isSome = true

theorem Scans.spelled {chars : List Char} {tokens : List Token} (scans : Scans chars tokens)
    (present : token ∈ tokens) : token.Spelled := by
  induction scans with
  | done _ same =>
    rcases List.mem_singleton.mp present with rfl
    constructor
    · intro isString
      exact absurd (same.1.symm.trans isString) (by simp [Token.unread, Token.atEnd])
    · intro isNumber
      exact absurd (same.1.symm.trans isNumber) (by simp [Token.unread, Token.atEnd])
  | more _ kindEq lexemeEq _ ih =>
    rcases List.mem_cons.mp present with rfl | later
    · constructor
      · intro isString
        rcases Lexeme.taken_of_string (kindEq ▸ isString) with ⟨body, takenEq⟩
        refine ⟨String.ofList body, ?_⟩
        rw [lexemeEq, takenEq, ← String.toList_inj]
        simp
      · intro isNumber
        rw [lexemeEq]
        exact Lexeme.isSome_parse?_of_number (kindEq ▸ isNumber)
    · exact ih later

theorem Token.Spelled.isSpan_unquoted (spelled : token.Spelled) (isString : token.kind = .string) :
    1 ≤ token.lexeme.utf8ByteSize ∧ IsSpan token.lexeme 1 (token.lexeme.utf8ByteSize - 1) := by
  rcases spelled.string isString with ⟨body, lexemeEq⟩
  have sizeEq : token.lexeme.utf8ByteSize = 1 + body.utf8ByteSize + 1 := by
    rw [lexemeEq, String.utf8ByteSize_append, String.utf8ByteSize_append]
    rfl
  rw [sizeEq, Nat.add_sub_cancel]
  refine ⟨Nat.le_add_left _ _, ?_⟩
  rw [lexemeEq]
  exact isSpan_append "\"" body "\""

theorem spelled_of_mem_tokens (present : token ∈ tokens text) : token.Spelled :=
  (tokens_scans text).spelled present

theorem stands_of_mem_tokens (present : token ∈ tokens text) : token.Stands text := by
  rcases exists_tiled text with ⟨front, ending, _, tiled, tokensEq, _⟩
  rw [tokensEq] at present
  exact tiled.stands present

theorem isSpan_of_mem_tokens (present : token ∈ tokens text) :
    IsSpan text token.start (token.start + token.length) := by
  rcases (stands_of_mem_tokens present).cut with ⟨before, after, textEq, startEq⟩
  rw [textEq, startEq]
  exact isSpan_append before token.lexeme after

/-- The lines of tokens never go back. -/
theorem tokens_rows (text : String) :
    (tokens text).Pairwise fun token later => token.row text ≤ later.row text := by
  rcases exists_tiled text with ⟨front, ending, _, tiled, tokensEq, _⟩
  rw [tokensEq]
  exact tiled.pairwise.imp fun behind =>
    Nat.add_le_add_left (lineEndsBefore_mono text (Nat.le_of_add_right_le behind)) 1

end StackScript
