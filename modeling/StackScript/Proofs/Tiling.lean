import StackScript.Proofs.Scanning

/-!
# Tokens and gaps tile a text

A text is a gap, a token, a gap, a token and so on, down to a last gap. The place of a token is the
number of bytes in front of it, and its line is told by the line ends in front of it. The text is
followed as a list of characters; whoever counts bytes sees the same.
-/

namespace StackScript

variable {text : String}

/-! ## Bytes -/

/-- The bytes of characters. -/
def bytes (chars : List Char) : Nat :=
  (String.ofList chars).utf8ByteSize

theorem bytes_append (chars more : List Char) :
    bytes (chars ++ more) = bytes chars + bytes more := by
  rw [bytes, String.ofList_append, String.utf8ByteSize_append]
  rfl

theorem bytes_le (chars more : List Char) : bytes chars ≤ bytes (chars ++ more) := by
  rw [bytes_append]
  omega

theorem bytes_singleton (c : Char) : bytes [c] = c.utf8Size :=
  String.utf8ByteSize_singleton

theorem bytes_pos {chars : List Char} (some : chars ≠ []) : 0 < bytes chars := by
  rcases List.exists_cons_of_ne_nil some with ⟨c, rest, rfl⟩
  have positive := c.utf8Size_pos
  rw [← List.singleton_append, bytes_append, bytes_singleton]
  omega

theorem bytes_toList (text : String) : bytes text.toList = text.utf8ByteSize := by
  rw [bytes, String.ofList_toList]

def lineEndsBefore (text : String) (place : Nat) : Nat :=
  (text.toUTF8.data.toList.take place).count 10

theorem count_encoded (c : Char) : (String.utf8EncodeChar c).count 10 = [c].count '\n' := by
  by_cases isEnd : c = '\n'
  · subst isEnd
    decide
  · have codeNe : c.val.toNat ≠ 10 := by
      intro same
      exact isEnd (Char.ext (UInt32.toNat_inj.mp same))
    have absent : [c].count '\n' = 0 := by simp [isEnd]
    rw [absent, List.count_eq_zero]
    intro found
    -- A byte of a longer encoding is at least 128; a single byte is the character itself.
    simp only [String.utf8EncodeChar] at found
    generalize c.val.toNat = code at codeNe found
    split at found
    · simp [← UInt8.toNat_inj] at found
      omega
    · split at found
      · simp [← UInt8.toNat_inj] at found
        omega
      · split at found
        · simp [← UInt8.toNat_inj] at found
          omega
        · simp [← UInt8.toNat_inj] at found
          omega

theorem count_allEncoded (chars : List Char) :
    (chars.flatMap String.utf8EncodeChar).count 10 = chars.count '\n' := by
  induction chars with
  | nil => rfl
  | cons c rest ih =>
    rw [List.flatMap_cons, List.count_append, count_encoded, ih, ← List.count_append]
    rfl

theorem lineEndsBefore_eq {front back : List Char} (splits : text.toList = front ++ back) :
    lineEndsBefore text (bytes front) = front.count '\n' := by
  have textEq : text = String.ofList (front ++ back) := by
    rw [← splits, String.ofList_toList]
  have encoded : text.toUTF8.data.toList =
      front.flatMap String.utf8EncodeChar ++ back.flatMap String.utf8EncodeChar := by
    rw [textEq, String.toUTF8_eq_toByteArray, String.toByteArray_ofList, List.utf8Encode,
      List.toList_data_toByteArray, List.flatMap_append]
  have lengthEq : bytes front = (front.flatMap String.utf8EncodeChar).length := by
    simp [bytes, String.utf8ByteSize, List.utf8Encode]
  rw [lineEndsBefore, encoded, lengthEq, List.take_left, count_allEncoded]

theorem lineEndsBefore_mono (text : String) {place later : Nat} (le : place ≤ later) :
    lineEndsBefore text place ≤ lineEndsBefore text later :=
  (List.take_sublist_take_left le).count_le _

/-- The line ends of a text. -/
def lineEnds (text : String) : Nat :=
  lineEndsBefore text text.utf8ByteSize

/-! ## Gaps -/

/-- Whether characters in front of `rest` are blanks, line ends and whole comments. -/
inductive Gap (rest : List Char) : List Char → Prop where
  | nothing : Gap rest []
  | blank {c : Char} {chars : List Char} (isBlank : c ∈ [' ', '\t', '\r', '\n'])
      (more : Gap rest chars) : Gap rest (c :: chars)
  | comment {body chars : List Char} (inLine : '\n' ∉ body)
      (ends : ∀ c ∈ (chars ++ rest).head?, c = '\n') (more : Gap rest chars) :
      Gap rest ('/' :: '/' :: body ++ chars)

/-- The line behind characters. -/
def lineBehind (chars : List Char) : Nat :=
  wrapLine (1 + chars.count '\n')

theorem lineBehind_append (before more : List Char) :
    lineBehind (before ++ more) = wrapLine (lineBehind before + more.count '\n') := by
  rw [lineBehind, lineBehind, wrapLine, wrapLine, wrapLine, Nat.mod_add_mod, List.count_append,
    Nat.add_assoc]

namespace Cursor

/-- The place behind `before`. -/
def behind (before rest : List Char) : Cursor :=
  ⟨rest, bytes before, lineBehind before⟩

inductive Skipped (rest : List Char) : Bool → List Char → Prop where
  | outside {chars : List Char} (gap : Gap rest chars) : Skipped rest false chars
  | inside {body chars : List Char} (inLine : '\n' ∉ body)
      (ends : ∀ c ∈ (chars ++ rest).head?, c = '\n') (gap : Gap rest chars) :
      Skipped rest true (body ++ chars)

theorem bytes_next (before : List Char) (c : Char) :
    bytes (before ++ [c]) = bytes before + c.utf8Size := by
  rw [bytes_append, bytes_singleton]

theorem lineBehind_lineEnd (before : List Char) :
    lineBehind (before ++ ['\n']) = wrapLine (lineBehind before + 1) :=
  lineBehind_append before ['\n']

theorem lineBehind_other (before : List Char) {c : Char} (other : c ≠ '\n') :
    lineBehind (before ++ [c]) = lineBehind before := by
  simp [lineBehind, other]

namespace Skipped

variable {rest skipped : List Char} {inComment : Bool}

theorem lineEnd (later : Skipped rest false skipped) :
    Skipped rest inComment ('\n' :: skipped) := by
  cases later with
  | outside gap =>
    have blank : Gap rest ('\n' :: skipped) := .blank (by simp) gap
    cases inComment with
    | false => exact .outside blank
    | true => exact @inside rest [] _ (by simp) (by simp) blank

theorem plain {c : Char} (other : c ≠ '\n') (skips : (inComment || isGap c) = true)
    (later : Skipped rest inComment skipped) : Skipped rest inComment (c :: skipped) := by
  cases later with
  | outside gap =>
    have isBlank : c ∈ [' ', '\t', '\r', '\n'] := by
      simp only [Bool.false_or, isGap, Bool.or_eq_true, beq_iff_eq] at skips
      simp only [List.mem_cons]
      tauto
    exact .outside (.blank isBlank gap)
  | @inside body _ inLine ends gap =>
    have inLineToo : '\n' ∉ c :: body := by
      simp [inLine, other.symm]
    exact .inside inLineToo ends gap

theorem opens (slash : (skipped ++ rest).head? = some '/') (later : Skipped rest true skipped) :
    Skipped rest false ('/' :: skipped) := by
  cases later with
  | @inside body chars inLine ends gap =>
    cases body with
    | nil => exact absurd (ends '/' slash) (by decide)
    | cons c body =>
      simp only [List.cons_append, List.head?_cons, Option.some.injEq] at slash
      subst slash
      have inLineRest : '\n' ∉ body := fun present => inLine (List.mem_cons_of_mem _ present)
      exact .outside (.comment inLineRest ends gap)

end Skipped

theorem skipGap_eq (inComment : Bool) (before chars : List Char) :
    ∃ skipped rest, chars = skipped ++ rest ∧ Skipped rest inComment skipped ∧
      skipGap inComment (bytes before) (lineBehind before) chars =
        behind (before ++ skipped) rest := by
  induction chars generalizing inComment before with
  | nil =>
    refine ⟨[], [], rfl, ?_, by rw [List.append_nil]; rfl⟩
    cases inComment with
    | false => exact .outside .nothing
    | true => exact @Skipped.inside [] [] [] (by simp) (by simp) .nothing
  | cons c chars ih =>
    -- One character more in front of what the rest of the text skips.
    have onward (inside : Bool) (extend : ∀ rest skipped, chars = skipped ++ rest →
        Skipped rest inside skipped → Skipped rest inComment (c :: skipped)) :
        ∃ skipped rest, c :: chars = skipped ++ rest ∧ Skipped rest inComment skipped ∧
          skipGap inside (bytes (before ++ [c])) (lineBehind (before ++ [c])) chars =
            behind (before ++ skipped) rest := by
      rcases ih inside (before ++ [c]) with ⟨skipped, rest, charsEq, later, skips⟩
      refine ⟨c :: skipped, rest, by rw [charsEq]; rfl, extend rest skipped charsEq later, ?_⟩
      rw [skips, List.append_assoc]
      rfl
    rw [skipGap]
    by_cases isEnd : c = '\n'
    · subst isEnd
      have moved := onward false fun rest skipped _ later => later.lineEnd
      rw [bytes_next, lineBehind_lineEnd] at moved
      exact moved
    · rw [if_neg (by simpa using isEnd)]
      rw [lineBehind_other before isEnd, bytes_next] at onward
      by_cases skips : (inComment || isGap c) = true
      · rw [if_pos skips]
        exact onward inComment fun rest skipped _ later => later.plain isEnd skips
      · rw [if_neg skips]
        simp only [Bool.or_eq_true, not_or, Bool.not_eq_true] at skips
        obtain ⟨rfl, _⟩ := skips
        by_cases opens : (c == '/' && chars.head? == some '/') = true
        · rw [if_pos opens]
          simp only [Bool.and_eq_true, beq_iff_eq] at opens
          obtain ⟨rfl, slash⟩ := opens
          exact onward true fun rest skipped charsEq later => later.opens (charsEq ▸ slash)
        · rw [if_neg opens]
          refine ⟨[], c :: chars, rfl, .outside .nothing, ?_⟩
          rw [List.append_nil]
          rfl

theorem atToken_behind (before chars : List Char) :
    ∃ gap rest, chars = gap ++ rest ∧ Gap rest gap ∧
      (behind before chars).atToken = behind (before ++ gap) rest := by
  rcases skipGap_eq false before chars with ⟨gap, rest, charsEq, ⟨isGap⟩, skips⟩
  exact ⟨gap, rest, charsEq, isGap, skips⟩

theorem tokenHere_behind (before : List Char) (first : Char) (rest : List Char) :
    ∃ kind taken after, first :: rest = taken ++ after ∧ taken ≠ [] ∧ kind ≠ .endOfText ∧
      (behind before (first :: rest)).tokenHere =
        (⟨kind, String.ofList taken, bytes before, lineBehind before⟩,
          behind (before ++ taken) after) := by
  have splits := Lexeme.cut_splits first rest
  refine ⟨(Lexeme.cut first rest).kind, (Lexeme.cut first rest).taken,
    (Lexeme.cut first rest).rest, splits.append_rest.symm, splits.taken_ne_nil,
    Lexeme.cut_kind_ne first rest, ?_⟩
  simp [behind, tokenHere, Token.length, lineBehind_append, bytes]

end Cursor

/-! ## Tilings -/

/--
The tokens of `chars`, which stand behind `before`: a gap and a token again and again, and a gap at
the end.
-/
inductive Tiled : List Char → List Char → List Token → Prop where
  | ending {before gap : List Char} (isGap : Gap [] gap) :
      Tiled before gap [.atEnd (bytes (before ++ gap)) (lineBehind (before ++ gap))]
  | token {before gap taken rest : List Char} {kind : Token.Kind} {later : List Token}
      (isGap : Gap (taken ++ rest) gap) (some : taken ≠ []) (more : kind ≠ .endOfText)
      (tiled : Tiled (before ++ gap ++ taken) rest later) :
      Tiled before (gap ++ (taken ++ rest))
        (⟨kind, String.ofList taken, bytes (before ++ gap), lineBehind (before ++ gap)⟩ :: later)

namespace Cursor

theorem next_behind (before chars : List Char) :
    (Gap [] chars ∧ (behind before chars).next =
      (.atEnd (bytes (before ++ chars)) (lineBehind (before ++ chars)),
        behind (before ++ chars) [])) ∨
    ∃ gap taken rest kind, chars = gap ++ (taken ++ rest) ∧ Gap (taken ++ rest) gap ∧
      taken ≠ [] ∧ kind ≠ .endOfText ∧ (behind before chars).next =
        (⟨kind, String.ofList taken, bytes (before ++ gap), lineBehind (before ++ gap)⟩,
          behind (before ++ gap ++ taken) rest) := by
  rcases atToken_behind before chars with ⟨gap, rest, rfl, isGap, found⟩
  rw [next, found]
  cases rest with
  | nil =>
    left
    rw [List.append_nil]
    exact ⟨isGap, rfl⟩
  | cons first rest =>
    right
    rcases tokenHere_behind (before ++ gap) first rest with
      ⟨kind, taken, after, restEq, some, more, here⟩
    exact ⟨gap, taken, after, kind, by rw [restEq], restEq ▸ isGap, some, more, here⟩

theorem take_atEnd (before : List Char) (count : Nat) :
    (behind before []).take count =
      List.replicate count (.atEnd (bytes before) (lineBehind before)) := by
  induction count with
  | zero => rfl
  | succ count ih =>
    rw [List.replicate_succ, ← ih]
    rfl

/-- Scanning tiles the text and then stays at its end. -/
theorem collect_tiled (seen : Array Token) (cursor : Cursor) (before chars : List Char)
    (here : cursor = behind before chars) :
    ∃ front ending, ending = .atEnd (bytes (before ++ chars)) (lineBehind (before ++ chars)) ∧
      Tiled before chars (front ++ [ending]) ∧
      (cursor.collect seen).1.toList = seen.toList ++ (front ++ [ending]) ∧
      ∀ count, cursor.take (front.length + count) = front ++ List.replicate count ending := by
  induction seen, cursor using collect.induct generalizing before chars with
  | case1 seen cursor token after read ended =>
    subst here
    rcases next_behind before chars with ⟨isGap, found⟩ | ⟨_, _, _, _, _, _, _, more, found⟩
    · refine ⟨[], _, rfl, .ending isGap, ?_, ?_⟩
      · rw [collect]
        rw [read] at found
        rcases Prod.mk.inj found with ⟨rfl, rfl⟩
        simp [read, ended]
      · intro count
        cases count with
        | zero => rfl
        | succ count =>
          rw [List.length_nil, Nat.zero_add, take, found, take_atEnd]
          rfl
    · rw [read] at found
      rcases Prod.mk.inj found with ⟨rfl, rfl⟩
      exact absurd ended more
  | case2 seen cursor token after read goesOn ih =>
    subst here
    rcases next_behind before chars with
      ⟨_, found⟩ | ⟨gap, taken, rest, kind, rfl, isGap, some, more, found⟩
    · rw [read] at found
      rcases Prod.mk.inj found with ⟨rfl, rfl⟩
      exact absurd rfl goesOn
    · rw [read] at found
      rcases Prod.mk.inj found with ⟨rfl, rfl⟩
      rcases ih _ _ rfl with ⟨front, ending, endingEq, tiled, collected, repeats⟩
      rw [List.append_assoc, List.append_assoc] at endingEq
      refine ⟨_ :: front, ending, endingEq, .token isGap some more tiled, ?_, ?_⟩
      · rw [collect]
        simp only [read, if_neg goesOn]
        rw [collected]
        simp
      · intro count
        rw [List.length_cons, Nat.add_right_comm, take, read, repeats]
        rfl

end Cursor

/-- Whether a byte of the text belongs to a token. -/
def Token.Covers (token : Token) (place : Nat) : Prop :=
  token.start ≤ place ∧ place < token.start + token.length

namespace Tiled

variable {before chars : List Char} {tokens : List Token} {token : Token}

section

variable (tiled : Tiled before chars tokens)
include tiled

theorem exists_place (present : token ∈ tokens) :
    ∃ front back, chars = front ++ (token.lexeme.toList ++ back) ∧
      token.start = bytes (before ++ front) ∧ token.line = lineBehind (before ++ front) := by
  induction tiled with
  | @ending before gap isGap =>
    rcases List.mem_singleton.mp present with rfl
    exact ⟨gap, [], by simp [Token.atEnd], rfl, rfl⟩
  | @token before gap taken rest kind later isGap some more tiled ih =>
    rcases List.mem_cons.mp present with rfl | behind
    · exact ⟨gap, rest, by simp, rfl, rfl⟩
    · rcases ih behind with ⟨front, back, rfl, placed⟩
      refine ⟨gap ++ taken ++ front, back, by simp, ?_⟩
      simpa using placed

theorem le_start (present : token ∈ tokens) : bytes before ≤ token.start := by
  rcases tiled.exists_place present with ⟨front, _, _, startEq, _⟩
  rw [startEq]
  exact bytes_le ..

theorem pairwise : tokens.Pairwise fun token later => token.start + token.length ≤ later.start := by
  induction tiled with
  | ending isGap => exact List.pairwise_singleton _ _
  | @token before gap taken rest kind later isGap some more tiled ih =>
    refine List.pairwise_cons.mpr ⟨?_, ih⟩
    intro other present
    have after := tiled.le_start present
    rw [bytes_append] at after
    exact after

end

theorem kind_ne {front : List Token} {ending : Token}
    (tiled : Tiled before chars (front ++ [ending])) (present : token ∈ front) :
    token.kind ≠ .endOfText ∧ 0 < token.length := by
  generalize allEq : front ++ [ending] = all at tiled
  induction tiled generalizing front with
  | ending isGap =>
    have noFront : front = [] := by
      simpa using congrArg List.length allEq
    subst noFront
    cases present
  | @token before gap taken rest kind later isGap some more tiled ih =>
    cases front with
    | nil => cases present
    | cons head front =>
      rcases List.cons.inj allEq with ⟨rfl, laterEq⟩
      rcases List.mem_cons.mp present with rfl | behind
      · exact ⟨more, bytes_pos some⟩
      · exact ih behind laterEq

/-- A byte of the text belongs to a token or to a gap that no token reaches into. -/
theorem covers (tiled : Tiled before chars tokens) {place : Nat} (reached : bytes before ≤ place)
    (inside : place < bytes (before ++ chars)) :
    (∃ token ∈ tokens, token.Covers place) ∨
    ∃ front gap back, before ++ chars = front ++ (gap ++ back) ∧ Gap back gap ∧
      bytes before ≤ bytes front ∧ bytes front ≤ place ∧ place < bytes (front ++ gap) ∧
      ∀ token ∈ tokens,
        token.start + token.length ≤ bytes front ∨ bytes (front ++ gap) ≤ token.start := by
  induction tiled with
  | @ending before gap isGap =>
    right
    refine ⟨before, gap, [], by simp, isGap, Nat.le_refl _, reached, inside, ?_⟩
    intro token present
    rcases List.mem_singleton.mp present with rfl
    exact .inr (Nat.le_refl _)
  | @token before gap taken rest kind later isGap some more tiled ih =>
    by_cases inGap : place < bytes (before ++ gap)
    · right
      refine ⟨before, gap, taken ++ rest, rfl, isGap, Nat.le_refl _, reached, inGap, ?_⟩
      intro token present
      rcases List.mem_cons.mp present with rfl | behind
      · exact .inr (Nat.le_refl _)
      · exact .inr (Nat.le_trans (bytes_le ..) (tiled.le_start behind))
    · by_cases inToken : place < bytes (before ++ gap ++ taken)
      · left
        rw [bytes_append (before ++ gap)] at inToken
        exact ⟨_, List.mem_cons_self, Nat.not_lt.mp inGap, inToken⟩
      · have insideRest : place < bytes (before ++ gap ++ taken ++ rest) := by
          simpa using inside
        rcases ih (Nat.not_lt.mp inToken) insideRest with
          ⟨token, present, covers⟩ | ⟨front, other, back, textEq, isOther, behind, found⟩
        · exact .inl ⟨token, List.mem_cons_of_mem _ present, covers⟩
        · right
          refine ⟨front, other, back, ?_, isOther, ?_, found.1, found.2.1, ?_⟩
          · rw [← textEq]
            simp
          · rw [List.append_assoc] at behind
            exact Nat.le_trans (bytes_le ..) behind
          · intro token present
            rcases List.mem_cons.mp present with rfl | later
            · left
              rw [bytes_append (before ++ gap)] at behind
              exact behind
            · exact found.2.2 token later

end Tiled

/-- The number of the line that a token starts on. -/
def Token.row (text : String) (token : Token) : Nat :=
  1 + lineEndsBefore text token.start

theorem Token.row_le {token : Token} (inside : token.start ≤ text.utf8ByteSize) :
    token.row text ≤ 1 + lineEnds text :=
  Nat.add_le_add_left (lineEndsBefore_mono text inside) 1

/--
Whether a token is a part of a text: whole characters, on the line that it says. The numbers of
lines start over where 32 bits are used up.
-/
structure Token.Stands (token : Token) (text : String) : Prop where
  cut : ∃ before after, text = before ++ token.lexeme ++ after ∧
    token.start = before.utf8ByteSize
  line_eq : token.line = wrapLine (token.row text)
  exact_line : lineEnds text < UInt32.size - 1 → token.line = token.row text

/-- Whether a byte of a text belongs to a gap that none of the tokens reaches into. -/
def InGap (tokens : List Token) (text : String) (place : Nat) : Prop :=
  ∃ before gap after : String, text = before ++ gap ++ after ∧ Gap after.toList gap.toList ∧
    before.utf8ByteSize ≤ place ∧ place < (before ++ gap).utf8ByteSize ∧
    ∀ token ∈ tokens, token.start + token.length ≤ before.utf8ByteSize ∨
      (before ++ gap).utf8ByteSize ≤ token.start

theorem Tiled.stands {tokens : List Token} (tiled : Tiled [] text.toList tokens) {token : Token}
    (present : token ∈ tokens) : token.Stands text := by
  rcases tiled.exists_place present with ⟨front, back, textEq, startEq, lineEq⟩
  rw [List.nil_append] at startEq lineEq
  have lineIs : token.line = wrapLine (token.row text) := by
    rw [Token.row, startEq, lineEndsBefore_eq textEq, lineEq]
    rfl
  refine ⟨?_, lineIs, fun few => ?_⟩
  · refine ⟨String.ofList front, String.ofList back, ?_, startEq⟩
    rw [← String.toList_inj, textEq]
    simp
  · have inside : token.start ≤ text.utf8ByteSize := by
      rw [startEq, ← bytes_toList, textEq]
      exact bytes_le ..
    have below := Token.row_le inside
    rw [lineIs, wrapLine, Nat.mod_eq_of_lt (by omega)]

theorem exists_tiled (text : String) :
    ∃ front ending, ending = .atEnd (bytes text.toList) (lineBehind text.toList) ∧
      Tiled [] text.toList (front ++ [ending]) ∧ tokens text = front ++ [ending] ∧
      ∀ count, (Cursor.start text).take (front.length + count) =
        front ++ List.replicate count ending := by
  rcases Cursor.collect_tiled #[] (.start text) [] text.toList rfl with
    ⟨front, ending, endingEq, tiled, collected, repeats⟩
  exact ⟨front, ending, endingEq, tiled, by simpa [tokens] using collected, repeats⟩

theorem Tiled.covered {front : List Token} {ending : Token}
    (tiled : Tiled [] text.toList (front ++ [ending])) (empty : ending.length = 0) {place : Nat}
    (inside : place < text.utf8ByteSize) :
    (∃ token ∈ front, token.Covers place) ∨ InGap front text place := by
  rw [← bytes_toList] at inside
  rcases tiled.covers (Nat.zero_le place) inside with
    ⟨token, present, covers⟩ | ⟨before, gap, back, textEq, isGap, _, reached, within, apart⟩
  · rcases List.mem_append.mp present with found | last
    · exact .inl ⟨token, found, covers⟩
    · rcases List.mem_singleton.mp last with rfl
      have room := covers.2
      have start := covers.1
      omega
  · right
    rw [List.nil_append] at textEq
    refine ⟨String.ofList before, String.ofList gap, String.ofList back, ?_, ?_, reached, ?_, ?_⟩
    · rw [← String.toList_inj, textEq]
      simp
    · simpa using isGap
    · rw [← String.ofList_append]
      exact within
    · intro token present
      rw [← String.ofList_append]
      exact apart token (List.mem_append_left _ present)

/--
The tokens of a text and the gaps between them tile it. Scanning gives finitely many tokens in
front of the one at the end, and from then on that one again and again.
-/
theorem tokens_tile (text : String) :
    ∃ front ending, tokens text = front ++ [ending] ∧
      (∀ count, (Cursor.start text).take (front.length + count) =
        front ++ List.replicate count ending) ∧
      (∀ token ∈ front, token.kind ≠ .endOfText ∧ 0 < token.length ∧ token.Stands text) ∧
      front.Pairwise (fun token later => token.start + token.length ≤ later.start) ∧
      (∀ place < text.utf8ByteSize,
        (∃ token ∈ front, token.Covers place) ∨ InGap front text place) ∧
      ending.kind = .endOfText ∧ ending.start = text.utf8ByteSize ∧ ending.length = 0 ∧
      ending.Stands text := by
  rcases exists_tiled text with ⟨front, ending, endingEq, tiled, tokensEq, repeats⟩
  have empty : ending.length = 0 := by
    rw [endingEq]
    rfl
  refine ⟨front, ending, tokensEq, repeats, ?_, ?_, ?_, ?_, ?_, empty, ?_⟩
  · intro token present
    rcases tiled.kind_ne present with ⟨more, some⟩
    exact ⟨more, some, tiled.stands (List.mem_append_left _ present)⟩
  · exact (List.pairwise_append.mp tiled.pairwise).1
  · exact fun place inside => tiled.covered empty inside
  · rw [endingEq]
    rfl
  · rw [endingEq]
    exact bytes_toList text
  · exact tiled.stands (by simp)

end StackScript
