import StackScript.Datum
import StackScript.Proofs.Encoding

/-!
# Chunks on the way to their final form

While a function is compiled its chunk grows, and the distances of its forward jumps are filled in
later. A final chunk completes an earlier one if it has the same bytes apart from those distances,
the same constants and whatever was added behind them.
-/

namespace StackScript

namespace Chunk

variable {chunk : Chunk Constant} {holes : List Nat} {line offset : Nat} {opcode : Opcode}

/-- Appends an instruction. -/
def write (chunk : Chunk Constant) (opcode : Opcode) (operand line : Nat) : Chunk Constant :=
  { chunk with
    code := chunk.code ++ (opcode.bytes operand).toArray
    lines := chunk.lines.push line
    starts := chunk.starts.push chunk.size }

@[simp] theorem size_write (opcode : Opcode) (operand line : Nat) :
    (chunk.write opcode operand line).size = chunk.size + opcode.size := by
  simp [write, size]

@[simp] theorem constants_write (opcode : Opcode) (operand line : Nat) :
    (chunk.write opcode operand line).constants = chunk.constants :=
  rfl

@[simp] theorem size_patchWord (offset word : Nat) :
    (chunk.patchWord offset word).size = chunk.size := by
  simp [patchWord, size]

@[simp] theorem constants_patchWord (offset word : Nat) :
    (chunk.patchWord offset word).constants = chunk.constants :=
  rfl

theorem writeOpcode_eq_write (bare : opcode.operandSize = 0) :
    chunk.writeOpcode opcode line = chunk.write opcode 0 line := by
  simp [writeOpcode, write, Opcode.bytes, Opcode.operandBytes, bare, size]

theorem writeByte_eq_write {operand : UInt8} (short : opcode.operandSize = 1) :
    (chunk.writeOpcode opcode line).writeByte operand = chunk.write opcode operand.toNat line := by
  simp only [writeOpcode, writeByte, write, Opcode.bytes, Opcode.operandBytes, short, size,
    UInt8.ofNat_toNat, mk.injEq, and_self, and_true]
  apply Array.toList_inj.mp
  simp

theorem writeWord_eq_write {operand : Nat} (wide : opcode.operandSize = 2) :
    (chunk.writeOpcode opcode line).writeWord operand = chunk.write opcode operand line := by
  simp only [writeOpcode, writeWord, writeByte, write, Opcode.bytes, Opcode.operandBytes, wide,
    size, mk.injEq, and_self, and_true]
  apply Array.toList_inj.mp
  simp

theorem stands_write (chunk : Chunk Constant) (opcode : Opcode) (operand line : Nat) :
    Instruction.Stands (chunk.write opcode operand line).code chunk.size opcode operand := by
  intro place byte found
  have behind : chunk.size + place - chunk.code.size = place :=
    Nat.add_sub_cancel_left ..
  simp only [write, Array.getElem?_append_right (show chunk.code.size ≤ chunk.size + place from
    Nat.le_add_right _ _), behind, List.getElem?_toArray]
  exact found

theorem getElem?_patchWord {place word : Nat} (other_ne : place ≠ offset)
    (next_ne : place ≠ offset + 1) :
    (chunk.patchWord offset word).code[place]? = chunk.code[place]? := by
  simp only [patchWord, Array.getElem?_setIfInBounds]
  rw [if_neg (Ne.symm next_ne), if_neg (Ne.symm other_ne)]

theorem exists_readWord? {code : Array UInt8} (room : offset + 3 ≤ code.size) :
    ∃ word, readWord? code (offset + 1) = some word := by
  simp only [readWord?, Array.getElem?_eq_getElem (show offset + 1 < code.size by omega),
    Array.getElem?_eq_getElem (show offset + 1 + 1 < code.size by omega)]
  exact ⟨_, rfl⟩

/-- Whether `final` is `chunk` with the words at `holes` filled in and with more behind it. -/
structure Completes (final chunk : Chunk Constant) (holes : List Nat) : Prop where
  code_eq : ∀ place < chunk.size, (∀ hole ∈ holes, place ≠ hole ∧ place ≠ hole + 1) →
    final.code[place]? = chunk.code[place]?
  constants_eq : ∀ (place : Nat) (constant : Constant), chunk.constants[place]? = some constant →
    final.constants[place]? = some constant
  cut : ∃ offsets, final.starts.toList = chunk.starts.toList ++ offsets ∧
    Walk final.code chunk.size offsets final.size

theorem Completes.refl (chunk : Chunk Constant) : chunk.Completes chunk [] :=
  ⟨fun _ _ _ => rfl, fun _ _ found => found, [], by simp, .done _⟩

theorem Completes.mono {final : Chunk Constant} {more : List Nat}
    (completes : final.Completes chunk holes) (among : ∀ hole ∈ holes, hole ∈ more) :
    final.Completes chunk more :=
  ⟨fun place inside free => completes.code_eq place inside fun hole present =>
    free hole (among hole present), completes.constants_eq, completes.cut⟩

namespace Completes

variable {final : Chunk Constant} {opcode : Opcode} {operand line : Nat}

section

variable (completes : final.Completes (chunk.write opcode operand line) holes)
include completes

theorem getElem?_write {place : Nat} (inside : place < opcode.size)
    (free : ∀ hole ∈ holes, chunk.size + place ≠ hole ∧ chunk.size + place ≠ hole + 1) :
    final.code[chunk.size + place]? = (opcode.bytes operand)[place]? := by
  rw [completes.code_eq (chunk.size + place) (by simp; omega) free]
  simp only [write, size]
  rw [Array.getElem?_append_right (by omega)]
  simp

theorem code_eq_before {place : Nat} (inside : place < chunk.size)
    (free : ∀ hole ∈ holes, place ≠ hole ∧ place ≠ hole + 1) :
    final.code[place]? = chunk.code[place]? := by
  rw [completes.code_eq place (by simp; omega) free]
  have inCode : place < chunk.code.size := inside
  simp [write, Array.getElem?_append, inCode]

theorem cut_before {instruction : Instruction}
    (reads : Instruction.decode final.code chunk.size = .found instruction)
    (sized : instruction.size = opcode.size) :
    ∃ offsets, final.starts.toList = chunk.starts.toList ++ offsets ∧
      Walk final.code chunk.size offsets final.size := by
  rcases completes.cut with ⟨offsets, startsEq, walk⟩
  refine ⟨chunk.size :: offsets, ?_, .step reads ?_⟩
  · simp [startsEq, write]
  · simpa [sized] using walk

end

theorem of_write (held : ∀ hole ∈ holes, hole + 2 ≤ chunk.size)
    (small : operand < Nat.pow 256 opcode.operandSize)
    (completes : final.Completes (chunk.write opcode operand line) holes) :
    final.Completes chunk holes ∧
      Instruction.decode final.code chunk.size = .found (opcode.instruction operand) := by
  have reads : Instruction.decode final.code chunk.size = .found (opcode.instruction operand) := by
    apply Instruction.decode_of_stands small
    intro place byte found
    have inside : place < opcode.size := by
      have bound := (List.getElem?_eq_some_iff.mp found).1
      simpa using bound
    rw [completes.getElem?_write inside]
    · exact found
    · intro hole present
      have below := held hole present
      omega
  refine ⟨⟨?_, completes.constants_eq, completes.cut_before reads (by simp)⟩, reads⟩
  exact fun place inside free => completes.code_eq_before inside free

theorem size_le (completes : final.Completes chunk holes) : chunk.size ≤ final.size := by
  rcases completes.cut with ⟨offsets, _, walk⟩
  exact walk.le

theorem of_write_open (held : ∀ hole ∈ holes, hole + 2 ≤ chunk.size)
    (wide : opcode.operandSize = 2)
    (completes : final.Completes (chunk.write opcode operand line) ((chunk.size + 1) :: holes)) :
    final.Completes chunk holes ∧ ∃ distance,
      readWord? final.code (chunk.size + 1) = some distance ∧
      Instruction.decode final.code chunk.size = .found (opcode.instruction distance) := by
  have first : final.code[chunk.size]? = some opcode.toByte := by
    have found := completes.getElem?_write (Opcode.size_pos opcode) (by
      intro hole present
      rcases List.mem_cons.mp present with rfl | later
      · omega
      · have below := held hole later
        omega)
    simpa [Opcode.bytes] using found
  have room : chunk.size + 3 ≤ final.code.size := by
    have enough := completes.size_le
    rw [size_write, Opcode.size, wide] at enough
    exact enough
  rcases exists_readWord? room with ⟨distance, word⟩
  have reads := Instruction.decode_of_word wide first word
  refine ⟨⟨?_, completes.constants_eq, completes.cut_before reads (by simp)⟩, distance, word, reads⟩
  intro place inside free
  apply completes.code_eq_before inside
  intro hole present
  rcases List.mem_cons.mp present with rfl | later
  · omega
  · exact free hole later

theorem of_patch {offset word : Nat} (inside : offset + 2 ≤ chunk.size) (small : word < 65536)
    (apart : ∀ hole ∈ holes, hole + 2 ≤ offset ∨ offset + 2 ≤ hole)
    (completes : final.Completes (chunk.patchWord offset word) holes) :
    final.Completes chunk (offset :: holes) ∧ readWord? final.code offset = some word := by
  have filled : ∀ place byte, (chunk.patchWord offset word).code[place]? = some byte →
      offset ≤ place → place ≤ offset + 1 → final.code[place]? = some byte := by
    intro place byte found lower upper
    rw [completes.code_eq place (by simp; omega)]
    · exact found
    · intro hole present
      rcases apart hole present with before | behind
      · omega
      · omega
  have inCode : offset + 2 ≤ chunk.code.size := inside
  constructor
  · refine ⟨?_, completes.constants_eq, ?_⟩
    · intro place within free
      have own := free offset (by simp)
      rw [completes.code_eq place (by simpa using within) fun hole present =>
        free hole (by simp [present])]
      simp only [patchWord, Array.getElem?_setIfInBounds]
      rw [if_neg (by omega), if_neg (by omega)]
    · rcases completes.cut with ⟨offsets, startsEq, walk⟩
      exact ⟨offsets, startsEq, by simpa using walk⟩
  · apply readWord?_wordBytes small
    · apply filled _ _ _ (Nat.le_refl _) (by omega)
      simp only [patchWord, Array.getElem?_setIfInBounds]
      rw [if_neg (by omega), if_pos trivial, if_pos (by omega)]
    · apply filled _ _ _ (by omega) (Nat.le_refl _)
      simp only [patchWord, Array.getElem?_setIfInBounds]
      rw [if_pos trivial, if_pos (by simp; omega)]

theorem of_push {constant : Constant}
    (completes : final.Completes { chunk with constants := chunk.constants.push constant } holes) :
    final.Completes chunk holes ∧
      final.constants[chunk.constants.size]? = some constant := by
  refine ⟨⟨completes.code_eq, ?_, completes.cut⟩, ?_⟩
  · intro place entry found
    apply completes.constants_eq
    have bound := (Array.getElem?_eq_some_iff.mp found).1
    simp only [Array.getElem?_push]
    rw [if_neg (by omega)]
    exact found
  · apply completes.constants_eq
    simp

end Completes

/-! ## Going backwards -/

/--
Whether whatever completes `after` with the words at `left` open completes `before` and satisfies
`claim`, with any words of `before` left open.
-/
def Recovers (before after : Chunk Constant) (left : List Nat) (claim : Chunk Constant → Prop) :
    Prop :=
  ∀ (final : Chunk Constant) (holes : List Nat), (∀ hole ∈ holes, hole + 2 ≤ before.size) →
    final.Completes after (left ++ holes) → final.Completes before holes ∧ claim final

namespace Recovers

variable {before middle after : Chunk Constant} {left later : List Nat}
  {claim other : Chunk Constant → Prop} {opcode : Opcode} {operand : Nat}

theorem refl (chunk : Chunk Constant) : chunk.Recovers chunk [] fun _ => True :=
  fun _ _ _ completes => ⟨completes, trivial⟩

theorem andThen (first : before.Recovers middle left claim)
    (second : middle.Recovers after later other) (grows : before.size ≤ middle.size)
    (inside : ∀ hole ∈ left, hole + 2 ≤ middle.size) :
    before.Recovers after (later ++ left) fun final => claim final ∧ other final := by
  intro final holes below completes
  rw [List.append_assoc] at completes
  rcases second final (left ++ holes) (by
    intro hole present
    rcases List.mem_append.mp present with own | outer
    · exact inside hole own
    · exact Nat.le_trans (below hole outer) grows) completes with ⟨completesMiddle, otherHolds⟩
  rcases first final holes below completesMiddle with ⟨completesBefore, claimHolds⟩
  exact ⟨completesBefore, claimHolds, otherHolds⟩

theorem imp (recovers : before.Recovers after left claim)
    (implies : ∀ final, claim final → other final) : before.Recovers after left other := by
  intro final holes below completes
  rcases recovers final holes below completes with ⟨completesBefore, holds⟩
  exact ⟨completesBefore, implies final holds⟩

theorem write {line : Nat} (small : operand < Nat.pow 256 opcode.operandSize) :
    before.Recovers (before.write opcode operand line) [] fun final =>
      Instruction.decode final.code before.size = .found (opcode.instruction operand) :=
  fun _ _ below completes => Completes.of_write below small completes

theorem jump {line : Nat} (wide : opcode.operandSize = 2) :
    before.Recovers (before.write opcode operand line) [before.size + 1]
      fun final => ∃ distance, readWord? final.code (before.size + 1) = some distance ∧
        Instruction.decode final.code before.size = .found (opcode.instruction distance) :=
  fun _ _ below completes => Completes.of_write_open below wide completes

theorem patch {offset word : Nat} (recovers : before.Recovers middle left claim)
    (inside : offset + 2 ≤ middle.size) (small : word < 65536) (behind : before.size ≤ offset)
    (apart : ∀ hole ∈ later, hole + 2 ≤ offset ∨ offset + 2 ≤ hole)
    (among : ∀ hole ∈ offset :: later, hole ∈ left) :
    before.Recovers (middle.patchWord offset word) later fun final =>
      claim final ∧ readWord? final.code offset = some word := by
  intro final holes below completes
  rcases Completes.of_patch inside small (by
    intro hole present
    rcases List.mem_append.mp present with own | outer
    · exact apart hole own
    · exact Or.inl (Nat.le_trans (below hole outer) behind)) completes with ⟨completesMiddle, word⟩
  rcases recovers final holes below (completesMiddle.mono (by
    intro hole present
    rw [← List.cons_append] at present
    rcases List.mem_append.mp present with own | outer
    · exact List.mem_append_left _ (among hole own)
    · exact List.mem_append_right _ outer)) with ⟨completesBefore, holds⟩
  exact ⟨completesBefore, holds, word⟩

theorem push {constant : Constant} :
    before.Recovers { before with constants := before.constants.push constant } []
      fun final => final.constants[before.constants.size]? = some constant :=
  fun _ _ _ completes => Completes.of_push completes

end Recovers

end Chunk

end StackScript
