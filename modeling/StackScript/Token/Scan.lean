import StackScript.Token

/-!
# Scanning

Program text is cut into tokens from the left. Blanks and comments in front of a token are
skipped, the token is the longest one that fits, and a character that starts no token becomes
an error token of its own. Positions count bytes of the UTF-8 text, lines count from one and
start over at zero where 32 bits are used up.

The text is a list of characters, and every part that is cut off is given back as a list of
characters: the position behind it follows from its bytes and its line ends alone. A token
takes at least one character, which is why scanning ends.
-/

namespace StackScript

/-- The number of a line as it is kept, in 32 bits. -/
def wrapLine (number : Nat) : Nat :=
  number % UInt32.size

/-- A place in the program text: what follows it, its byte and its line. -/
structure Cursor where
  rest : List Char
  offset : Nat
  line : Nat

namespace Lexeme

/-- The characters of a name, the first one apart. -/
def isWordChar (c : Char) : Bool :=
  c.isAlpha || c.isDigit || c == '_'

def isWordStart (c : Char) : Bool :=
  c.isAlpha || c == '_'

/-- The kind of a word. -/
def wordKind (word : List Char) : Token.Kind :=
  match Keyword.ofWord? (String.ofList word) with
  | some keyword => .keyword keyword
  | none => .identifier

/-- A part cut off the front of a text: its kind, its characters and what follows it. -/
structure Cut where
  kind : Token.Kind
  taken : List Char
  rest : List Char

def single (kind : Token.Kind) (first : Char) (rest : List Char) : Cut :=
  ⟨kind, [first], rest⟩

/-- A character that makes another token together with an equals sign behind it. -/
def withEqual (alone together : Token.Kind) (first : Char) : List Char → Cut
  | '=' :: rest => ⟨together, [first, '='], rest⟩
  | rest => ⟨alone, [first], rest⟩

/-- A string, from its opening quote; without a closing quote it takes all of the text. -/
def quoted (first : Char) (rest : List Char) : Cut :=
  let body := rest.takeWhile (· != '"')
  match rest.dropWhile (· != '"') with
  | [] => ⟨.error .unterminatedString, first :: body, []⟩
  | quote :: after => ⟨.string, first :: body ++ [quote], after⟩

/-- Digits, with a fraction if a digit follows the point. -/
def digits (first : Char) (rest : List Char) : Cut :=
  let whole := first :: rest.takeWhile Char.isDigit
  match rest.dropWhile Char.isDigit with
  | '.' :: digit :: after =>
    if digit.isDigit then
      ⟨.number, whole ++ '.' :: digit :: after.takeWhile Char.isDigit,
        after.dropWhile Char.isDigit⟩
    else ⟨.number, whole, '.' :: digit :: after⟩
  | after => ⟨.number, whole, after⟩

/-- A word as a token. -/
def word (first : Char) (rest : List Char) : Cut :=
  let chars := first :: rest.takeWhile isWordChar
  ⟨wordKind chars, chars, rest.dropWhile isWordChar⟩

/-- The token that starts with `first`. -/
def cut (first : Char) (rest : List Char) : Cut :=
  match first with
  | '(' => single .leftParen first rest
  | ')' => single .rightParen first rest
  | '{' => single .leftBrace first rest
  | '}' => single .rightBrace first rest
  | ',' => single .comma first rest
  | '.' => single .dot first rest
  | '-' => single .minus first rest
  | '+' => single .plus first rest
  | ';' => single .semicolon first rest
  | '/' => single .slash first rest
  | '*' => single .star first rest
  | '!' => withEqual .bang .bangEqual first rest
  | '=' => withEqual .equal .equalEqual first rest
  | '<' => withEqual .less .lessEqual first rest
  | '>' => withEqual .greater .greaterEqual first rest
  | '"' => quoted first rest
  | _ =>
    if first.isDigit then digits first rest
    else if isWordStart first then word first rest
    else single (.error .unexpectedCharacter) first rest

/-- A cut takes something off the front of a text and loses nothing. -/
structure Cut.Splits (part : Cut) (text : List Char) : Prop where
  append_rest : part.taken ++ part.rest = text
  taken_ne_nil : part.taken ≠ []

theorem single_splits (kind : Token.Kind) (first : Char) (rest : List Char) :
    (single kind first rest).Splits (first :: rest) :=
  ⟨rfl, by simp [single]⟩

theorem withEqual_splits (alone together : Token.Kind) (first : Char) (rest : List Char) :
    (withEqual alone together first rest).Splits (first :: rest) := by
  unfold withEqual
  split
  · exact ⟨rfl, by simp⟩
  · exact ⟨rfl, by simp⟩

theorem quoted_splits (first : Char) (rest : List Char) :
    (quoted first rest).Splits (first :: rest) := by
  have whole : rest.takeWhile (· != '"') ++ rest.dropWhile (· != '"') = rest :=
    List.takeWhile_append_dropWhile
  unfold quoted
  split
  · next unclosed =>
    rw [unclosed, List.append_nil] at whole
    exact ⟨by simp [whole], by simp⟩
  · next quote after closed =>
    rw [closed] at whole
    exact ⟨by simp [whole], by simp⟩

theorem digits_splits (first : Char) (rest : List Char) :
    (digits first rest).Splits (first :: rest) := by
  have whole : rest.takeWhile Char.isDigit ++ rest.dropWhile Char.isDigit = rest :=
    List.takeWhile_append_dropWhile
  unfold digits
  split
  · next digit after point =>
    rw [point] at whole
    split
    · exact ⟨by simp [whole], by simp⟩
    · exact ⟨by simp [whole], by simp⟩
  · exact ⟨by simp, by simp⟩

theorem word_splits (first : Char) (rest : List Char) :
    (word first rest).Splits (first :: rest) :=
  ⟨by simp [word], by simp [word]⟩

theorem cut_splits (first : Char) (rest : List Char) :
    (cut first rest).Splits (first :: rest) := by
  unfold cut
  split
  case h_12 => exact withEqual_splits ..
  case h_13 => exact withEqual_splits ..
  case h_14 => exact withEqual_splits ..
  case h_15 => exact withEqual_splits ..
  case h_16 => exact quoted_splits ..
  case h_17 =>
    split
    · exact digits_splits ..
    · split
      · exact word_splits ..
      · exact single_splits ..
  all_goals exact single_splits ..

/-- What follows a token is shorter than the text that the token was taken from. -/
theorem Cut.Splits.length_rest_lt {part : Cut} {text : List Char} (splits : part.Splits text) :
    part.rest.length < text.length := by
  have total := congrArg List.length splits.append_rest
  have taken := List.length_pos_iff.mpr splits.taken_ne_nil
  rw [List.length_append] at total
  omega

end Lexeme

namespace Cursor

def start (text : String) : Cursor :=
  ⟨text.toList, 0, 1⟩

/-- The blanks between tokens, line ends apart. -/
def isGap (c : Char) : Bool :=
  c == ' ' || c == '\r' || c == '\t'

/--
Skips blanks, line ends and comments. A comment starts with two slashes and reaches to the end
of its line, where `inComment` is taken back.
-/
def skipGap (inComment : Bool) (offset line : Nat) : List Char → Cursor
  | [] => ⟨[], offset, line⟩
  | c :: rest =>
    if c == '\n' then skipGap false (offset + 1) (wrapLine (line + 1)) rest
    else if inComment || isGap c then skipGap inComment (offset + c.utf8Size) line rest
    else if c == '/' && rest.head? == some '/' then skipGap true (offset + 1) line rest
    else ⟨c :: rest, offset, line⟩

/-- The place of the next token. -/
def atToken (cursor : Cursor) : Cursor :=
  skipGap false cursor.offset cursor.line cursor.rest

/-- The token at a place that no gap precedes, and the place behind that token. -/
def tokenHere (place : Cursor) : Token × Cursor :=
  match place.rest with
  | [] => (.atEnd place.offset place.line, place)
  | first :: rest =>
    let part := Lexeme.cut first rest
    let token : Token := ⟨part.kind, String.ofList part.taken, place.offset, place.line⟩
    let line := wrapLine (place.line + part.taken.count '\n')
    (token, ⟨part.rest, place.offset + token.length, line⟩)

/-- The next token and the place behind it; at the end of the text both stay the same. -/
def next (cursor : Cursor) : Token × Cursor :=
  cursor.atToken.tokenHere

theorem length_skipGap_le (inComment : Bool) (offset line : Nat) (chars : List Char) :
    (skipGap inComment offset line chars).rest.length ≤ chars.length := by
  induction chars generalizing inComment offset line with
  | nil => simp [skipGap]
  | cons c rest ih =>
    unfold skipGap
    split
    · exact Nat.le_succ_of_le (ih ..)
    · split
      · exact Nat.le_succ_of_le (ih ..)
      · split
        · exact Nat.le_succ_of_le (ih ..)
        · exact Nat.le_refl _

theorem length_tokenHere_lt (place : Cursor) (more : place.tokenHere.1.kind ≠ .endOfText) :
    place.tokenHere.2.rest.length < place.rest.length := by
  unfold tokenHere at more ⊢
  split
  · next nothing =>
    rw [nothing] at more
    exact absurd rfl more
  · next first rest found =>
    rw [found]
    exact (Lexeme.cut_splits first rest).length_rest_lt

/-- Only the end of the text leaves the rest of the text as long as it was. -/
theorem length_next_lt (cursor : Cursor) (more : cursor.next.1.kind ≠ .endOfText) :
    cursor.next.2.rest.length < cursor.rest.length :=
  Nat.lt_of_lt_of_le (length_tokenHere_lt _ more) (length_skipGap_le ..)

/--
Adds the tokens from `cursor` to the end of the text to `seen`, the one at the end included, and
gives the place reached.
-/
def collect (seen : Array Token) (cursor : Cursor) : Array Token × Cursor :=
  match _read : cursor.next with
  | (token, after) =>
    if token.kind = .endOfText then (seen.push token, after)
    else collect (seen.push token) after
termination_by cursor.rest.length
decreasing_by
  have shorter := length_next_lt cursor
  rw [_read] at shorter
  exact shorter ‹_›

/-- The next `count` tokens, whether or not the text has that many. -/
def take : Nat → Cursor → List Token
  | 0, _ => []
  | count + 1, cursor => cursor.next.1 :: take count cursor.next.2

end Cursor

/-- The tokens of a text, with the token at its end as the last one. -/
def tokens (text : String) : List Token :=
  (Cursor.start text).collect #[] |>.1.toList

/-- The tokens of a text and then `extra` more, read on behind the end. -/
def tokensBeyond (text : String) (extra : Nat) : List Token :=
  let (seen, cursor) := (Cursor.start text).collect #[]
  seen.toList ++ cursor.take extra

end StackScript
