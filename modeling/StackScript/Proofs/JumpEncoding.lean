import StackScript.Proofs.Execution
import StackScript.Proofs.Stock

/-!
# Distances of jumps

A jump forward is written before its distance is known. Code may be appended and other jumps may get
their distances meanwhile, and afterwards: the jump leads to where the code ended when its distance
was filled in.
-/

namespace StackScript

open Compile

namespace Compiler

/--
What may become of the code around the jump with its word at `offset`: more code is appended, and
other jumps get their distances.
-/
inductive GoesOn (offset : Nat) (before : Compiler) : Compiler → Prop where
  | refl : GoesOn offset before before
  | append {middle after : Compiler} (earlier : GoesOn offset before middle)
      (longer : middle.draft.chunk.code.toList <+: after.draft.chunk.code.toList) :
      GoesOn offset before after
  | patch {middle after : Compiler} {other : Nat} (earlier : GoesOn offset before middle)
      (apart : Apart offset other) (patched : patchJump other middle = .ok () after) :
      GoesOn offset before after

end Compiler

/-- Whether a machine that takes the jump with its word at `offset` goes on at `target`. -/
def LeadsTo (opcode : Opcode) (code : Array UInt8) (offset target : Nat) : Prop :=
  ∀ (machine : Machine) (frame : Frame), machine.frames.back? = some frame →
    frame.chunk.code = code → frame.ip + 1 = offset →
    (opcode = .jumpIfFalse → ∃ (stack : Array Value) (value : Value),
      machine.stack = stack.push value ∧ value.isFalsey = true) →
    Exec.step machine = .ok none (machine.resume frame target)

/-! ## Words in code -/

namespace Chunk

variable {chunk : Chunk Constant} {offset other word place : Nat}

theorem readWord?_patchWord (inside : offset + 2 ≤ chunk.size) (small : word < 65536) :
    readWord? (chunk.patchWord offset word).code offset = some word := by
  have room : offset + 1 < chunk.code.size := inside
  apply readWord?_wordBytes small
  · simp [patchWord, Array.getElem?_setIfInBounds]
    omega
  · simp [patchWord, room]

theorem patchWord_comm (apart : Apart offset other) (word otherWord : Nat) :
    (chunk.patchWord offset word).patchWord other otherWord =
      (chunk.patchWord other otherWord).patchWord offset word := by
  rw [Apart] at apart
  have codeEq : ((chunk.patchWord offset word).patchWord other otherWord).code =
      ((chunk.patchWord other otherWord).patchWord offset word).code := by
    apply Array.ext_getElem?
    intro place
    simp only [patchWord, Array.getElem?_setIfInBounds, Array.size_setIfInBounds]
    grind
  simp only [patchWord, mk.injEq, and_self, and_true] at codeEq ⊢
  exact codeEq

end Chunk

namespace Compiler

variable {before after later : Compiler} {offset other : Nat}

theorem GoesOn.keeps (goes : GoesOn offset before after) :
    before.draft.chunk.size ≤ after.draft.chunk.size ∧
      ∀ place byte, offset ≤ place + 1 → place < offset + 2 →
        before.draft.chunk.code[place]? = some byte →
        after.draft.chunk.code[place]? = some byte := by
  induction goes with
  | refl => exact ⟨Nat.le_refl _, fun _ _ _ _ found => found⟩
  | append earlier longer ih =>
    rcases longer with ⟨more, codeEq⟩
    constructor
    · refine Nat.le_trans ih.1 ?_
      rw [Chunk.size, Chunk.size, ← Array.length_toList, ← Array.length_toList, ← codeEq,
        List.length_append]
      exact Nat.le_add_right _ _
    · intro place byte first last found
      have found := ih.2 place byte first last found
      rw [← Array.getElem?_toList] at found ⊢
      rw [← codeEq, List.getElem?_append_left (List.getElem?_eq_some_iff.mp found).1]
      exact found
  | patch earlier apart patched ih =>
    rcases effect_patchJump ⟨_, _, patched, rfl, rfl⟩ with ⟨_, _, draftEq⟩
    rw [draftEq, Draft.patch]
    rw [Apart] at apart
    refine ⟨by simpa using ih.1, fun place byte first last found => ?_⟩
    rw [Chunk.getElem?_patchWord (by omega) (by omega)]
    exact ih.2 place byte first last found

theorem GoesOn.keepsWord (goes : GoesOn offset before after) {word : Nat}
    (found : Chunk.readWord? before.draft.chunk.code offset = some word) :
    Chunk.readWord? after.draft.chunk.code offset = some word := by
  simp only [Chunk.readWord?, Option.bind_eq_bind, Option.bind_eq_some_iff] at found ⊢
  rcases found with ⟨upper, isUpper, lower, isLower, wordEq⟩
  exact ⟨upper, goes.keeps.2 _ _ (by omega) (by omega) isUpper, lower,
    goes.keeps.2 _ _ (by omega) (by omega) isLower, wordEq⟩

end Compiler

/-! ## Where jumps lead -/

namespace LeadsTo

variable {code : Array UInt8} {start distance : Nat} {opcode : Opcode}

theorem forward (forward : opcode ∈ forwardJumps)
    (first : code[start]? = some opcode.toByte)
    (word : Chunk.readWord? code (start + 1) = some distance) :
    LeadsTo opcode code (start + 1) (start + 3 + distance) := by
  intro machine frame innermost codeEq ipEq taken
  obtain rfl : frame.ip = start := Nat.succ.inj ipEq
  have found : frame.chunk.Has frame.ip (opcode.instruction distance) := by
    rw [Chunk.Has, codeEq]
    exact Instruction.decode_of_word (wide_of_forward forward) first word
  have resumed : (machine.resume frame (frame.ip + 3)).frames.back? =
      some { frame with ip := frame.ip + 3 } := Array.back?_push
  rw [Exec.step_eq innermost found]
  simp only [forwardJumps, List.mem_cons, List.not_mem_nil, or_false] at forward
  rcases forward with rfl | rfl
  · have stepped := Exec.execute_jump resumed distance
    rw [Machine.resume_resume] at stepped
    exact stepped
  · rcases taken rfl with ⟨stack, value, top, falsey⟩
    have stepped := Exec.execute_jumpIfFalse resumed top distance
    rw [if_pos falsey, Machine.resume_resume] at stepped
    exact stepped

theorem back (first : code[start]? = some Opcode.loop.toByte)
    (word : Chunk.readWord? code (start + 1) = some distance) (inside : distance ≤ start + 3) :
    LeadsTo .loop code (start + 1) (start + 3 - distance) := by
  intro machine frame innermost codeEq ipEq _
  obtain rfl : frame.ip = start := Nat.succ.inj ipEq
  have found : frame.chunk.Has frame.ip (.loop distance) := by
    rw [Chunk.Has, codeEq]
    exact Instruction.decode_of_word rfl first word
  rw [Exec.step_eq innermost found, Exec.execute_loop Array.back?_push inside,
    Machine.resume_resume]
  rfl

end LeadsTo

namespace Compile

variable {later final : Compiler} {start offset : Nat} {opcode : Opcode}

theorem leadsTo_patched (forward : opcode ∈ forwardJumps)
    (first : later.draft.chunk.code[start]? = some opcode.toByte)
    (inside : start + 3 ≤ later.draft.chunk.size)
    (near : later.draft.chunk.size - (start + 3) ≤ maxDistance)
    (goes : (later.onDraft (·.patch (start + 1) (later.draft.chunk.size - (start + 3)))).GoesOn
      (start + 1) final) :
    LeadsTo opcode final.draft.chunk.code (start + 1) later.draft.chunk.size := by
  have word := goes.keepsWord (Chunk.readWord?_patchWord inside (Nat.lt_succ_of_le near))
  have still : (later.draft.chunk.patchWord (start + 1)
      (later.draft.chunk.size - (start + 3))).code[start]? = some opcode.toByte :=
    (Chunk.getElem?_patchWord (Nat.succ_ne_self start).symm (by omega)).trans first
  have leads := LeadsTo.forward forward (goes.keeps.2 start _ (by omega) (by omega) still) word
  rwa [Nat.add_sub_cancel' inside] at leads

theorem patchJump_patched {place word : Nat} (inside : offset + 2 ≤ later.draft.chunk.size)
    (near : later.draft.chunk.size - (offset + 2) ≤ maxDistance) :
    patchJump offset (later.onDraft (·.patch place word)) = .ok ()
      (later.onDraft fun draft =>
        (draft.patch place word).patch offset (later.draft.chunk.size - (offset + 2))) := by
  have sizeEq : (later.onDraft (·.patch place word)).draft.chunk.size =
      later.draft.chunk.size := Chunk.size_patchWord place word
  rw [patchJump_apply (by rw [sizeEq]; exact inside), sizeEq, if_pos near]
  rfl

theorem patchJump_comm {other : Nat} (inside : offset + 2 ≤ later.draft.chunk.size)
    (near : later.draft.chunk.size - (offset + 2) ≤ maxDistance)
    (apart : Apart offset other) {swapped : Compiler}
    (patched : patchJump other later = .ok () swapped) :
    ∃ both, patchJump other
        (later.onDraft (·.patch offset (later.draft.chunk.size - (offset + 2)))) = .ok () both ∧
      patchJump offset swapped = .ok () both := by
  have otherInside := (effect_patchJump ⟨_, _, patched, rfl, rfl⟩).1
  rw [patchJump_apply otherInside] at patched
  split at patched
  · next otherNear =>
    cases patched
    refine ⟨_, patchJump_patched otherInside otherNear, ?_⟩
    rw [patchJump_patched inside near]
    simp only [Compiler.onDraft, Draft.patch, Chunk.patchWord_comm apart]
  · cases patched

theorem leadsTo_looped {compiler : Compiler} (inside : start ≤ compiler.draft.chunk.size + 3)
    (near : compiler.draft.chunk.size + 3 - start ≤ maxDistance)
    (goes : (compiler.onDraft (·.write .loop (compiler.draft.chunk.size + 3 - start)
      compiler.previous.line)).GoesOn (compiler.draft.chunk.size + 1) final) :
    LeadsTo .loop final.draft.chunk.code (compiler.draft.chunk.size + 1) start := by
  have stands : Instruction.Stands _ _ _ _ := compiler.draft.chunk.stands_write .loop
    (compiler.draft.chunk.size + 3 - start) compiler.previous.line
  have first := goes.keeps.2 _ _ (Nat.le_refl _) (by omega) (stands 0 _ rfl)
  have word := goes.keepsWord
    (Chunk.readWord?_wordBytes (Nat.lt_succ_of_le near) (stands 1 _ rfl) (stands 2 _ rfl))
  have leads := LeadsTo.back first word (Nat.sub_le _ _)
  rwa [Nat.sub_sub_self inside] at leads

end Compile

/--
A jump forward gets its distance exactly if that fits into a word. Then only the two bytes of its
word change, and the jump leads to where the code ended, whatever is written behind it and in
whatever order other jumps get their distances. Otherwise nothing changes. A jump back is written
exactly if its distance fits into a word, and it leads to where it should.
-/
theorem jumps_lead (compiler : Compiler) :
    (∀ opcode ∈ forwardJumps, ∃ offset jumped,
      emitJump opcode compiler = .ok offset jumped ∧ offset = compiler.draft.chunk.size + 1 ∧
      ∀ later, jumped.GoesOn offset later →
        (later.draft.chunk.size - offset - 2 ≤ 65535 ∧ ∃ code patched,
          patchJump offset later = .ok () patched ∧
          patched = later.onChunk (fun chunk => { chunk with code }) ∧
          code.size = later.draft.chunk.size ∧
          (∀ place, place ≠ offset → place ≠ offset + 1 →
            code[place]? = later.draft.chunk.code[place]?) ∧
          (∀ final, patched.GoesOn offset final →
            LeadsTo opcode final.draft.chunk.code offset later.draft.chunk.size) ∧
          ∀ other swapped, Apart offset other → patchJump other later = .ok () swapped →
            ∃ both, patchJump other patched = .ok () both ∧
              patchJump offset swapped = .ok () both) ∨
        (65535 < later.draft.chunk.size - offset - 2 ∧
          patchJump offset later = .error (.atToken later.previous .jumpTooLarge) later)) ∧
    ∀ start ≤ compiler.draft.chunk.size,
      (compiler.draft.chunk.size + 3 - start ≤ 65535 ∧ ∃ looped,
        emitLoop start compiler = .ok () looped ∧
        ∀ final, looped.GoesOn (compiler.draft.chunk.size + 1) final →
          LeadsTo .loop final.draft.chunk.code (compiler.draft.chunk.size + 1) start) ∨
      (65535 < compiler.draft.chunk.size + 3 - start ∧ ∃ failed,
        emitLoop start compiler = .error (.atToken compiler.previous .loopTooLarge) failed) := by
  constructor
  · intro opcode forward
    have wide := wide_of_forward forward
    refine ⟨_, _, emitJump_apply wide compiler, rfl, fun later goes => ?_⟩
    have inside := goes.keeps.1
    rw [Compiler.onDraft, Draft.write, Chunk.size_write, Opcode.size, wide] at inside
    have first := goes.keeps.2 compiler.draft.chunk.size opcode.toByte (by omega) (by omega)
      (compiler.draft.chunk.stands_write opcode placeholder compiler.previous.line
        0 opcode.toByte rfl)
    rw [patchJump_apply inside, Nat.sub_sub]
    by_cases near : later.draft.chunk.size - (compiler.draft.chunk.size + 3) ≤ maxDistance
    · refine .inl ⟨near, _, _, if_pos near, rfl, ?_, ?_, ?_, ?_⟩
      · exact Chunk.size_patchWord _ _
      · exact fun place => Chunk.getElem?_patchWord
      · exact fun final goes => leadsTo_patched forward first inside near goes
      · exact fun other swapped apart => patchJump_comm inside near apart
    · exact .inr ⟨Nat.not_le.mp near, if_neg near⟩
  · intro start inside
    have inside : start ≤ compiler.draft.chunk.size + 3 := Nat.le_add_right_of_le inside
    rw [emitLoop_apply inside]
    by_cases near : compiler.draft.chunk.size + 3 - start ≤ maxDistance
    · rw [if_pos near]
      exact .inl ⟨near, _, rfl, fun final goes => leadsTo_looped inside near goes⟩
    · rw [if_neg near]
      exact .inr ⟨Nat.not_le.mp near, _, rfl⟩

end StackScript
