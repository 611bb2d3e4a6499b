import StackScript.Proofs.Building
import StackScript.Proofs.Completion
import StackScript.Proofs.Lexemes
import StackScript.Proofs.Reading.Program

/-!
# Lines that the compiler records

The compiler reads tokens in the order of their lines, and an instruction is written for the line of
the token that was read last. So the lines of a function never go back.
-/

namespace StackScript

/-- Whether a function was written from what follows on this word and a name. -/
def Function.AnnouncedBy (text : String) (keyword : Token) (function : Function) : Prop :=
  keyword.kind = .keyword .funKw ∧ ∃ (compiler : Compiler) (levels : Nat) (returned : Compiler),
    keyword :: compiler.previous :: compiler.stream <:+ tokens text ∧
    compiler.previous.kind = .identifier ∧
    Compile.functionText (.level levels) compiler = .ok () returned ∧
    function = returned.draft.function

/--
Whether these are the numbers of lines from `first` to `last` that never go back, as they are kept
in 32 bits.
-/
def Ordered (first last : Nat) (lines : List Nat) : Prop :=
  ∃ rows : List Nat, lines = rows.map wrapLine ∧ rows.Pairwise (· ≤ ·) ∧
    ∀ row ∈ rows, first ≤ row ∧ row ≤ last

/-- Whether the lines of a function are in order, from the one of the word that announces it on. -/
def Function.InTime (text : String) (function : Function) : Prop :=
  ∃ keyword, function.AnnouncedBy text keyword ∧
    Ordered (keyword.row text) (1 + lineEnds text) function.chunk.lines.toList

/-- Whether the lines of a function are in order, and those of the functions of its pool as well. -/
structure Function.DatedHere (text : String) (function : Function) : Prop where
  ordered : Ordered 1 (1 + lineEnds text) function.chunk.lines.toList
  inTime : ∀ constant ∈ function.chunk.constants, Constant.Holds (Function.InTime text) constant
  written : ∃ last, function.chunk.lines.back? = some last

abbrev Function.Dated (text : String) : Function → Prop :=
  Function.Every (Function.DatedHere text)

/-- Whether a chunk was written to for this line only, and its pool has got proper functions. -/
structure Chunk.Grows (text : String) (line : Nat) (chunk chunk' : Chunk Constant) : Prop where
  size_le : chunk.size ≤ chunk'.size
  lines : ∃ count, chunk'.lines.toList = chunk.lines.toList ++ List.replicate count line
  constants : ∀ constant ∈ chunk'.constants, constant ∈ chunk.constants ∨
    constant.Holds fun function => function.InTime text ∧ function.Dated text

/-- Whether the compiler has written only for lines that it has read, in their order. -/
structure Compiler.Dated (text : String) (compiler : Compiler) : Prop where
  stream : compiler.stream <:+ tokens text
  behind : compiler.previous :: compiler.stream <:+ .unread :: tokens text ∨
    compiler.previous = compiler.current ∧ compiler.upcoming = []
  functions : ∀ constant ∈ compiler.draft.chunk.constants,
    constant.Holds fun function => function.InTime text ∧ function.Dated text

/-- Whether the compiler has gone on from one state to another, forward in the text. -/
structure Compiler.Onward (text : String) (compiler after : Compiler) : Prop where
  dated : after.Dated text
  later : compiler.previous.row text ≤ after.previous.row text
  added : ∃ lines, after.draft.chunk.lines.toList = compiler.draft.chunk.lines.toList ++ lines ∧
    Ordered (compiler.previous.row text) (after.previous.row text) lines

/-! ## Tokens -/

section Tokens

variable {text : String} {token : Token} {others : List Token}

theorem readable_sorted (text : String) :
    (.unread :: tokens text).Pairwise fun token later => token.row text ≤ later.row text :=
  List.pairwise_cons.mpr ⟨fun _ _ => Nat.le_add_right 1 _, tokens_rows text⟩

theorem getLast?_tokens (text : String) :
    ∃ ending, (tokens text).getLast? = some ending ∧ ending.kind = .endOfText := by
  rcases tokens_end text with ⟨front, ending, tokensEq, atEnd, _⟩
  exact ⟨ending, by simp [tokensEq], atEnd⟩

theorem row_le_of_mem (present : token ∈ .unread :: tokens text) :
    token.row text ≤ 1 + lineEnds text := by
  rcases List.mem_cons.mp present with rfl | present
  · exact Nat.le_add_right 1 _
  · rcases (stands_of_mem_tokens present).cut with ⟨before, after, textEq, startEq⟩
    apply Token.row_le
    rw [startEq, textEq, String.utf8ByteSize_append, String.utf8ByteSize_append]
    omega

theorem line_eq_of_mem (present : token ∈ .unread :: tokens text) :
    token.line = wrapLine (token.row text) := by
  rcases List.mem_cons.mp present with rfl | present
  · rfl
  · exact (stands_of_mem_tokens present).line_eq

theorem suffix_tokens (suffix : token :: others <:+ .unread :: tokens text)
    (read : token.kind ≠ Token.unread.kind) : token :: others <:+ tokens text := by
  rcases List.suffix_cons_iff.mp suffix with whole | suffix
  · cases whole
    exact absurd rfl read
  · exact suffix

theorem ne_nil_of_suffix (suffix : token :: others <:+ tokens text)
    (more : token.kind ≠ .endOfText) : others ≠ [] := by
  rintro rfl
  rcases suffix with ⟨front, tokensEq⟩
  rcases getLast?_tokens text with ⟨ending, isLast, atEnd⟩
  rw [← tokensEq, List.getLast?_concat] at isLast
  cases isLast
  exact more atEnd

end Tokens

/-! ## Lines -/

namespace Ordered

variable {first middle last : Nat} {lines more : List Nat}

theorem nil : Ordered first last [] :=
  ⟨[], rfl, .nil, nofun⟩

theorem replicate (count row : Nat) : Ordered row row (List.replicate count (wrapLine row)) := by
  refine ⟨List.replicate count row, by simp, List.pairwise_replicate.mpr (.inr (Nat.le_refl _)), ?_⟩
  intro other present
  rw [List.eq_of_mem_replicate present]
  exact ⟨Nat.le_refl _, Nat.le_refl _⟩

theorem mono (ordered : Ordered first last lines) {sooner later : Nat} (before : sooner ≤ first)
    (behind : last ≤ later) : Ordered sooner later lines := by
  rcases ordered with ⟨rows, linesEq, sorted, bounds⟩
  refine ⟨rows, linesEq, sorted, fun row present => ?_⟩
  have between := bounds row present
  omega

theorem append (ordered : Ordered first middle lines) (follows : Ordered middle last more)
    (before : first ≤ middle) (behind : middle ≤ last) : Ordered first last (lines ++ more) := by
  rcases ordered with ⟨rows, rfl, sorted, bounds⟩
  rcases follows with ⟨others, rfl, sortedToo, boundsToo⟩
  refine ⟨rows ++ others, by simp, List.pairwise_append.mpr ⟨sorted, sortedToo, ?_⟩, ?_⟩
  · exact fun row present other presentToo =>
      Nat.le_trans (bounds row present).2 (boundsToo other presentToo).1
  · intro row present
    rcases List.mem_append.mp present with inFront | inBack
    · have between := bounds row inFront
      omega
    · have between := boundsToo row inBack
      omega

/-- Where 32 bits are enough, the numbers are kept as they are. -/
theorem exact (ordered : Ordered first last lines) (few : last < UInt32.size) :
    lines.Pairwise (· ≤ ·) ∧ ∀ line ∈ lines, first ≤ line ∧ line ≤ last := by
  rcases ordered with ⟨rows, rfl, sorted, bounds⟩
  have same : rows.map wrapLine = rows.map id := by
    refine List.map_congr_left fun row present => Nat.mod_eq_of_lt ?_
    exact Nat.lt_of_le_of_lt (bounds row present).2 few
  rw [same, List.map_id]
  exact ⟨sorted, bounds⟩

end Ordered

/-! ## Chunks -/

namespace Chunk

variable {text : String} {line later : Nat} {chunk chunk' : Chunk Constant}

namespace Grows

theorem refl : chunk.Grows text line chunk where
  size_le := Nat.le_refl _
  lines := ⟨0, by simp⟩
  constants _ := .inl

theorem write (opcode : Opcode) (operand : Nat) :
    chunk.Grows text line (chunk.write opcode operand line) where
  size_le := by simp
  lines := ⟨1, by simp [Chunk.write]⟩
  constants _ := .inl

theorem patchWord (offset word : Nat) : chunk.Grows text line (chunk.patchWord offset word) where
  size_le := by simp [Chunk.size, Chunk.patchWord]
  lines := ⟨0, by simp [Chunk.patchWord]⟩
  constants _ := .inl

theorem hold {constant : Constant}
    (proper : constant.Holds fun function => function.InTime text ∧ function.Dated text) :
    chunk.Grows text line { chunk with constants := chunk.constants.push constant } where
  size_le := Nat.le_refl _
  lines := ⟨0, by simp⟩
  constants other present := by
    rcases Array.mem_push.mp present with earlier | rfl
    · exact .inl earlier
    · exact .inr proper

end Grows

end Chunk

/-! ## States of the compiler -/

namespace Compiler

variable {text : String} {compiler middle after : Compiler}

namespace Dated

variable (dated : compiler.Dated text)
include dated

theorem previous_mem : compiler.previous ∈ .unread :: tokens text := by
  rcases dated.behind with suffix | ⟨same, _⟩
  · exact suffix.subset List.mem_cons_self
  · rw [same]
    exact List.mem_cons_of_mem _ (dated.stream.subset List.mem_cons_self)

theorem row_le : compiler.previous.row text ≤ compiler.current.row text := by
  rcases dated.behind with suffix | ⟨same, _⟩
  · exact (List.pairwise_cons.mp ((readable_sorted text).sublist suffix.sublist)).1 _
      List.mem_cons_self
  · exact Nat.le_of_eq (congrArg (Token.row text) same)

theorem wrote (same : compiler.SamePlace after)
    (grows : compiler.draft.chunk.Grows text compiler.previous.line after.draft.chunk) :
    compiler.Onward text after where
  dated.stream := by
    rw [Compiler.stream, same.current_eq, same.upcoming_eq]
    exact dated.stream
  dated.behind := by
    rw [Compiler.stream, same.current_eq, same.upcoming_eq, same.previous_eq]
    exact dated.behind
  dated.functions constant present :=
    (grows.constants constant present).elim (dated.functions constant) id
  later := Nat.le_of_eq (congrArg (Token.row text) same.previous_eq.symm)
  added := by
    rcases grows.lines with ⟨count, linesEq⟩
    rw [line_eq_of_mem dated.previous_mem] at linesEq
    rw [same.previous_eq]
    exact ⟨_, linesEq, .replicate count _⟩

theorem shift : compiler.Onward text compiler.shift := by
  unfold Compiler.shift
  split
  · next none =>
    exact ⟨⟨dated.stream, .inr ⟨rfl, none⟩, dated.functions⟩, dated.row_le,
      [], (List.append_nil _).symm, .nil⟩
  · next token rest upcoming =>
    have stream := dated.stream
    rw [Compiler.stream, upcoming] at stream
    exact ⟨⟨(List.suffix_cons _ _).trans stream, .inl (stream.trans (List.suffix_cons _ _)),
      dated.functions⟩, dated.row_le, [], (List.append_nil _).symm, .nil⟩

end Dated

namespace Onward

theorem trans (first : compiler.Onward text middle) (second : middle.Onward text after) :
    compiler.Onward text after where
  dated := second.dated
  later := Nat.le_trans first.later second.later
  added := by
    rcases first.added with ⟨lines, linesEq, ordered⟩
    rcases second.added with ⟨more, moreEq, follows⟩
    refine ⟨lines ++ more, by rw [moreEq, linesEq, List.append_assoc], ?_⟩
    exact ordered.append follows first.later second.later

variable (onward : compiler.Onward text after) (empty : compiler.draft.chunk.lines = #[])
include onward empty

/-- The lines of what was begun and written since then. -/
theorem ordered : Ordered (compiler.previous.row text) (1 + lineEnds text)
    after.draft.function.chunk.lines.toList := by
  rcases onward.added with ⟨lines, linesEq, ordered⟩
  rw [empty, List.nil_append] at linesEq
  rw [Draft.function, linesEq]
  exact ordered.mono (Nat.le_refl _) (row_le_of_mem onward.dated.previous_mem)

theorem function {done : Compiler} (returns : Compile.emitReturn done = .ok () after) :
    after.draft.function.Dated text :=
  .mk ⟨(onward.ordered empty).mono (Nat.le_add_right 1 _) (Nat.le_refl _),
    fun _ present => (onward.dated.functions _ present).imp fun _ => And.left, _,
    Compile.back?_of_emitReturn returns⟩ fun _ _ held =>
    (onward.dated.functions _ (Array.mem_of_getElem? held)).2

end Onward

end Compiler

end StackScript
