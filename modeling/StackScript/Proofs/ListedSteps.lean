import Std.Data.String.ToInt
import Std.Data.String.ToNat
import StackScript.Listing
import StackScript.Proofs.Inward

/-!
# What a listing says about a step

Where a step succeeds, the innermost call goes on at the offset of the next line of the listing, or
at the target that the line of a jump shows; where a line tells of damage, the step fails for that
very reason. This holds of any bytes. What a line tells is read off its text.
-/

namespace StackScript

/-! ## Instructions at an offset -/

namespace Instruction

variable {code : Array UInt8} {offset : Nat}

theorem isSome_readWord?_iff : (Chunk.readWord? code offset).isSome ↔ offset + 2 ≤ code.size := by
  cases upper : code[offset]? with
  | none =>
    have ended := Array.getElem?_eq_none_iff.mp upper
    simp [Chunk.readWord?, upper]
    omega
  | some first =>
    cases lower : code[offset + 1]? with
    | none =>
      have ended := Array.getElem?_eq_none_iff.mp lower
      simp [Chunk.readWord?, upper, lower]
      omega
    | some second =>
      have inside := (Array.getElem?_eq_some_iff.mp lower).1
      simp [Chunk.readWord?, upper, lower]
      omega

theorem isSome_operand?_iff {opcode : Opcode} (here : code[offset]? = some opcode.toByte) :
    (operand? code offset opcode).isSome ↔ offset + opcode.size ≤ code.size := by
  have inside := (Array.getElem?_eq_some_iff.mp here).1
  cases opcode
  case constant | defineGlobal | setGlobal | getGlobal | getLocal | setLocal | call =>
    simp only [operand?, Opcode.operandSize, Option.isSome_map, isSome_getElem?, Opcode.size]
    omega
  case jump | jumpIfFalse | loop => exact isSome_readWord?_iff
  all_goals exact iff_of_true rfl inside

theorem decode_of_opcode {opcode : Opcode} (here : code[offset]? = some opcode.toByte) :
    (∃ instruction : Instruction, decode code offset = .found instruction ∧
      instruction.opcode = opcode ∧ offset + opcode.size ≤ code.size) ∨
    (decode code offset = .truncated opcode ∧ code.size < offset + opcode.size) := by
  have whole := isSome_operand?_iff here
  cases found : operand? code offset opcode with
  | none =>
    rw [found] at whole
    refine .inr ⟨?_, Nat.lt_of_not_le fun room => nomatch whole.mpr room⟩
    simp only [decode, here, Opcode.ofByte?_toByte, found]
  | some operand =>
    rw [found] at whole
    exact .inl ⟨_, decode_of_operand here found, by simp, whole.mp rfl⟩

end Instruction

/-! ## Lines -/

namespace Listing

def jumpLine (chunk : Chunk Constant) (offset : Nat) (opcode : Opcode) (target : Int) : String :=
  margin chunk offset ++ (nameColumn opcode ++ s!"{numberColumn offset} -> {target}")

def unknownLine (chunk : Chunk Constant) (offset byte : Nat) : String :=
  margin chunk offset ++ s!"Unknown opcode {byte}"

def truncatedLine (chunk : Chunk Constant) (offset : Nat) (opcode : Opcode) : String :=
  margin chunk offset ++ (nameColumn opcode ++ "<truncated>")

variable {chunk : Chunk Constant} {offset : Nat}

/-- The columns behind the name of the operation, if it has an operand. -/
def columns? (constants : Array Constant) (offset : Nat) (instruction : Instruction) :
    Option String :=
  match instruction with
  | .constant index | .defineGlobal index | .setGlobal index | .getGlobal index =>
    some s!"{numberColumn index} '{poolEntry constants index}'"
  | .getLocal operand | .setLocal operand | .call operand => some (numberColumn operand)
  | other => (other.target? offset).map fun place => s!"{numberColumn offset} -> {place}"

/-- What a line is to tell of that which stands at `offset`. -/
def told (constants : Array Constant) (offset : Nat) : Instruction.Decoded → String
  | .outside => "<end of chunk>"
  | .unknown byte => s!"Unknown opcode {byte.toNat}"
  | .truncated opcode => nameColumn opcode ++ "<truncated>"
  | .found instruction =>
    match columns? constants offset instruction with
    | some columns => nameColumn instruction.opcode ++ columns
    | none => instruction.opcode.name

/-- Where that which stands at `offset` ends. -/
def following (offset : Nat) : Instruction.Decoded → Nat
  | .outside | .unknown _ => offset + 1
  | .truncated opcode => offset + opcode.size
  | .found instruction => offset + instruction.size

theorem describe_eq {opcode : Opcode} :
    describe chunk offset opcode = told chunk.constants offset
      (match Instruction.operand? chunk.code offset opcode with
        | none => .truncated opcode
        | some operand => .found (opcode.instruction operand)) := by
  cases opcode
  case constant | defineGlobal | setGlobal | getGlobal | getLocal | setLocal | call =>
    cases operand : chunk.code[offset + 1]? <;>
      simp only [describe, operand, Instruction.operand?, Opcode.operandSize] <;> rfl
  case jump | jumpIfFalse | loop =>
    cases word : Chunk.readWord? chunk.code (offset + 1) <;>
      simp only [describe, word, Instruction.operand?, Opcode.operandSize] <;> rfl
  all_goals rfl

/-- A listing shows what stands in the code. -/
theorem instruction_eq (chunk : Chunk Constant) (offset : Nat) :
    instruction chunk offset =
      (margin chunk offset ++
          told chunk.constants offset (Instruction.decode chunk.code offset),
        following offset (Instruction.decode chunk.code offset)) := by
  cases here : chunk.code[offset]? with
  | none => simp only [instruction, Instruction.decode, here, told, following]
  | some byte =>
    cases known : Opcode.ofByte? byte with
    | none => simp only [instruction, Instruction.decode, here, known, told, following]
    | some opcode =>
      simp only [instruction, Instruction.decode, here, known, describe_eq]
      cases Instruction.operand? chunk.code offset opcode with
      | none => rw [following]
      | some operand => rw [following, Opcode.size_instruction]

theorem line_eq {decoded : Instruction.Decoded}
    (reads : Instruction.decode chunk.code offset = decoded) :
    (instruction chunk offset).1 = margin chunk offset ++ told chunk.constants offset decoded := by
  rw [instruction_eq, reads]

theorem next_eq {decoded : Instruction.Decoded}
    (reads : Instruction.decode chunk.code offset = decoded) :
    (instruction chunk offset).2 = following offset decoded := by
  rw [instruction_eq, reads]

theorem head?_nameColumn (opcode : Opcode) (rest : String) :
    (nameColumn opcode ++ rest).toList.head? = some 'O' := by
  cases opcode <;> simp [nameColumn, Text.alignLeft, Opcode.name]

theorem told_truncated (constants : Array Constant) (opcode : Opcode) :
    told constants offset (.truncated opcode) = nameColumn opcode ++ "<truncated>" := rfl

theorem told_found (constants : Array Constant) (instruction : Instruction) :
    told constants offset (.found instruction) =
      match columns? constants offset instruction with
      | some columns => nameColumn instruction.opcode ++ columns
      | none => instruction.opcode.name := rfl

theorem head?_told_found (constants : Array Constant) (instruction : Instruction) :
    (told constants offset (.found instruction)).toList.head? = some 'O' := by
  rw [told_found]
  split
  · exact head?_nameColumn _ _
  · cases instruction.opcode <;> rfl

theorem told_eq_unknown_iff {constants : Array Constant} {decoded : Instruction.Decoded}
    {byte : Nat} : told constants offset decoded = s!"Unknown opcode {byte}" ↔
      ∃ found : UInt8, decoded = .unknown found ∧ found.toNat = byte := by
  have starts : (s!"Unknown opcode {byte}").toList.head? = some 'U' := by
    rw [String.toList_append]
    rfl
  constructor
  · intro same
    cases decoded with
    | unknown found => exact ⟨found, rfl, Nat.repr_inj.mp (String.append_right_inj _ |>.mp same)⟩
    | outside =>
      rw [← same] at starts
      exact absurd (show "<end of chunk>".toList.head? = some 'U' from starts) (by decide)
    | truncated opcode =>
      rw [← same, told_truncated, head?_nameColumn] at starts
      cases starts
    | found instruction =>
      rw [← same, head?_told_found] at starts
      cases starts
  · rintro ⟨found, rfl, rfl⟩
    rfl

theorem not_mem_numberColumn (number : Nat) : '<' ∉ (numberColumn number).toList := by
  intro present
  simp only [numberColumn, Text.alignRight, String.toList_append, List.mem_append] at present
  rcases present with blank | digit
  · simp at blank
  · have inDigits : '<' ∈ Nat.toDigits 10 number := by simpa using digit
    exact absurd (Nat.isDigit_of_mem_toDigits (by decide) (by decide) inDigits) (by decide)

theorem numberColumn_ne_empty (number : Nat) : (numberColumn number).toList ≠ [] := by
  simp [numberColumn, Text.alignRight]

theorem columns_ne_truncated {constants : Array Constant} {instruction : Instruction}
    {columns : String} (shown : columns? constants offset instruction = some columns) :
    columns ≠ "<truncated>" := by
  have starts : ∃ number rest, numberColumn number ++ rest = columns := by
    cases instruction with
    | constant index | defineGlobal index | setGlobal index | getGlobal index =>
      refine ⟨index, " '" ++ poolEntry constants index ++ "'", ?_⟩
      rw [← Option.some.inj shown, ← String.append_assoc, ← String.append_assoc]
      rfl
    | getLocal operand | setLocal operand | call operand =>
      exact ⟨operand, "", by rw [← Option.some.inj shown, String.append_empty]⟩
    | jump distance | jumpIfFalse distance | loop distance =>
      exact ⟨offset, _, String.append_assoc.symm.trans (Option.some.inj shown)⟩
    | _ => cases shown
  rcases starts with ⟨number, rest, rfl⟩
  intro same
  have first : (numberColumn number ++ rest).toList.head? = some '<' := by
    rw [same]
    rfl
  rcases List.exists_cons_of_ne_nil (numberColumn_ne_empty number) with ⟨char, chars, column⟩
  rw [String.toList_append, column] at first
  cases first
  exact not_mem_numberColumn number (column ▸ List.mem_cons_self)

theorem told_found_ne_truncated (constants : Array Constant) (instruction : Instruction) :
    told constants offset (.found instruction) ≠
      nameColumn instruction.opcode ++ "<truncated>" := by
  rw [told_found]
  split
  · next columns shown =>
    rw [ne_eq, String.append_right_inj]
    exact columns_ne_truncated shown
  · intro same
    have lengths := congrArg String.length same
    have blank : " ".length = 1 := rfl
    simp only [nameColumn, Text.alignLeft, String.length_append, blank] at lengths
    omega

/-! ## Offsets of lines -/

/-- The offsets of the lines from `offset` to the end of the code. -/
def lineOffsets (chunk : Chunk Constant) (offset : Nat) : List Nat :=
  if offset < chunk.size then offset :: lineOffsets chunk (instruction chunk offset).2 else []
termination_by chunk.size - offset
decreasing_by
  have forward := lt_next chunk offset
  omega

/-- What holds of the lines of a listing, whatever the bytes of the chunk are. -/
structure Ascends (chunk : Chunk Constant) : Prop where
  lines_eq : ∀ name, Listing.chunk name chunk =
    (lineOffsets chunk 0).foldl (fun text offset => text ++ (instruction chunk offset).1 ++ "\n")
      s!"== {name} ==\n"
  ascending : (lineOffsets chunk 0).Pairwise (· < ·)
  inside : ∀ offset ∈ lineOffsets chunk 0, offset < chunk.size
  length_le : (lineOffsets chunk 0).length ≤ chunk.size

theorem addLines_eq_foldl (text : String) :
    addLines chunk text offset = (lineOffsets chunk offset).foldl
      (fun text offset => text ++ (instruction chunk offset).1 ++ "\n") text := by
  fun_induction lineOffsets chunk offset generalizing text with
  | case1 offset inside ih =>
    rw [addLines, if_pos inside, ih]
    rfl
  | case2 offset outside =>
    rw [addLines, if_neg outside]
    rfl

theorem mem_lineOffsets {place : Nat} (listed : place ∈ lineOffsets chunk offset) :
    offset ≤ place ∧ place < chunk.size := by
  fun_induction lineOffsets chunk offset with
  | case1 offset inside ih =>
    have forward : offset < (instruction chunk offset).2 := lt_next _ _
    rcases List.mem_cons.mp listed with rfl | later
    · exact ⟨Nat.le_refl _, inside⟩
    · exact ⟨Nat.le_trans (Nat.le_of_lt forward) (ih later).1, (ih later).2⟩
  | case2 offset outside => cases listed

theorem pairwise_lineOffsets : (lineOffsets chunk offset).Pairwise (· < ·) := by
  fun_induction lineOffsets chunk offset with
  | case1 offset inside ih =>
    refine .cons (fun place listed => ?_) ih
    exact Nat.lt_of_lt_of_le (lt_next _ _) (mem_lineOffsets listed).1
  | case2 offset outside => exact .nil

theorem length_lineOffsets_le : (lineOffsets chunk offset).length ≤ chunk.size - offset := by
  fun_induction lineOffsets chunk offset with
  | case1 offset inside ih =>
    have forward : offset < (instruction chunk offset).2 := lt_next _ _
    rw [List.length_cons]
    omega
  | case2 offset outside => exact Nat.zero_le _

theorem ascends (chunk : Chunk Constant) : Ascends chunk where
  lines_eq _ := addLines_eq_foldl _
  ascending := pairwise_lineOffsets
  inside _ listed := (mem_lineOffsets listed).2
  length_le := length_lineOffsets_le

end Listing

/-! ## Steps -/

theorem Fault.eq_unknownOpcode {fault : Fault} {byte : Nat}
    (said : fault.message = s!"Unknown opcode {byte}.") : fault = .unknownOpcode byte := by
  have starts : fault.message.toList.take 3 = ['U', 'n', 'k'] := by
    rw [said, String.toList_append, String.toList_append]
    rfl
  cases fault with
  | unknownOpcode other =>
    change s!"Unknown opcode {other}." = s!"Unknown opcode {byte}." at said
    rw [String.append_left_inj, String.append_right_inj] at said
    exact congrArg unknownOpcode (Nat.repr_inj.mp said)
  | wrongArgumentCount arity count =>
    dsimp only [message] at starts
    rw [String.toList_append, String.toList_append, String.toList_append,
      String.toList_append] at starts
    cases starts
  | outputFailed reason =>
    dsimp only [message] at starts
    rw [String.toList_append] at starts
    cases starts
  | undefinedVariable _ | missingConstant _ | nameNotText _ | missingLocal _ =>
    dsimp only [message] at starts
    rw [String.toList_append, String.toList_append] at starts
    cases starts
  | _ => exact absurd starts (by decide)

def Machine.LeftAt (machine : Machine) (frame : Frame) (ip : Nat) (after : Machine) : Prop :=
  after.frames[machine.frames.size - 1]? = some { frame with ip }

def Machine.FailsWith (machine : Machine) (message : String) : Prop :=
  ∃ fault after, Exec.step machine = .error fault after ∧ fault.message = message

/--
Whether the line of a listing for the place that a call has come to tells what the next step does.
-/
structure Listing.Tells (machine : Machine) (frame : Frame) : Prop where
  straight : ∀ opcode : Opcode, frame.chunk.code[frame.ip]? = some opcode.toByte →
    opcode ∉ [.jump, .jumpIfFalse, .loop, .ret] →
    ∀ result after, Exec.step machine = .ok result after →
      machine.LeftAt frame (instruction frame.chunk frame.ip).2 after
  jump : frame.chunk.code[frame.ip]? = some Opcode.jump.toByte →
    ∀ result after, Exec.step machine = .ok result after →
      ∃ target : Nat, machine.LeftAt frame target after ∧
        (instruction frame.chunk frame.ip).1 = jumpLine frame.chunk frame.ip .jump target
  taken : frame.chunk.code[frame.ip]? = some Opcode.jumpIfFalse.toByte →
    ∀ value, machine.stack.back? = some value → value.isFalsey = true →
    ∀ result after, Exec.step machine = .ok result after →
      ∃ target : Nat, machine.LeftAt frame target after ∧
        (instruction frame.chunk frame.ip).1 = jumpLine frame.chunk frame.ip .jumpIfFalse target
  untaken : frame.chunk.code[frame.ip]? = some Opcode.jumpIfFalse.toByte →
    ∀ value, machine.stack.back? = some value → value.isFalsey = false →
    ∀ result after, Exec.step machine = .ok result after →
      machine.LeftAt frame (instruction frame.chunk frame.ip).2 after
  loop : frame.chunk.code[frame.ip]? = some Opcode.loop.toByte →
    ∀ result after, Exec.step machine = .ok result after →
      ∃ target : Nat, machine.LeftAt frame target after ∧
        (instruction frame.chunk frame.ip).1 = jumpLine frame.chunk frame.ip .loop target
  beforeStart : frame.chunk.code[frame.ip]? = some Opcode.loop.toByte →
    (machine.FailsWith "Loop target before start of chunk." ↔
      ∃ target : Int, target < 0 ∧
        (instruction frame.chunk frame.ip).1 = jumpLine frame.chunk frame.ip .loop target)
  unknown : ∀ byte : Nat, machine.FailsWith s!"Unknown opcode {byte}." ↔
    (instruction frame.chunk frame.ip).1 = unknownLine frame.chunk frame.ip byte
  truncated : ∀ opcode : Opcode, frame.chunk.code[frame.ip]? = some opcode.toByte →
    (frame.chunk.size < frame.ip + opcode.size ↔
      (instruction frame.chunk frame.ip).1 = truncatedLine frame.chunk frame.ip opcode) ∧
    (frame.chunk.size < frame.ip + opcode.size →
      machine.FailsWith "Instruction pointer out of bounds.")

section Steps

variable {machine after : Machine} {frame : Frame} {result : Option Value}

theorem Exec.step_of_unknown {byte : UInt8} (innermost : machine.frames.back? = some frame)
    (reads : Instruction.decode frame.chunk.code frame.ip = .unknown byte) :
    step machine = .error (.unknownOpcode byte.toNat) (machine.resume frame (frame.ip + 1)) := by
  simp [step, fetch_apply innermost, reads]

theorem Exec.step_of_truncated {opcode : Opcode} (innermost : machine.frames.back? = some frame)
    (reads : Instruction.decode frame.chunk.code frame.ip = .truncated opcode) :
    step machine = .error .codeEnd (machine.resume frame frame.chunk.size) := by
  simp [step, fetch_apply innermost, reads]

theorem Machine.leftAt_of_frames_eq {ip : Nat}
    (same : after.frames = (machine.resume frame ip).frames) : machine.LeftAt frame ip after := by
  rw [LeftAt, same, resume_frames, ← Array.size_pop, Array.getElem?_push_size]

theorem Exec.exists_found {opcode : Opcode} (innermost : machine.frames.back? = some frame)
    (here : frame.chunk.code[frame.ip]? = some opcode.toByte)
    (ran : step machine = .ok result after) :
    ∃ instruction : Instruction, instruction.opcode = opcode ∧
      Instruction.decode frame.chunk.code frame.ip = .found instruction ∧
      execute instruction (machine.resume frame (frame.ip + instruction.size)) =
        .ok result after := by
  rcases Instruction.decode_of_opcode here with ⟨instruction, reads, same, _⟩ | ⟨reads, _⟩
  · exact ⟨instruction, same, reads, (step_eq innermost reads).symm.trans ran⟩
  · rw [step_of_truncated innermost reads] at ran
    cases ran

theorem Exec.leftAt_of_execute {instruction : Instruction} {ip : Nat}
    (onward : instruction.opcode ∉ [.jump, .jumpIfFalse, .loop, .ret])
    (ran : execute instruction (machine.resume frame ip) = .ok result after) :
    machine.LeftAt frame ip after := by
  have leads := execute_leads instruction (machine.resume frame ip)
  have caller : machine.LeftAt frame ip (machine.resume frame ip) :=
    Machine.leftAt_of_frames_eq rfl
  rw [ran] at leads
  cases leads with
  | goesOn stays _ =>
    rcases stays.frames_eq with same | ⟨jumps, _⟩
    · exact Machine.leftAt_of_frames_eq same
    · cases instruction <;> cases jumps <;> simp [Instruction.opcode] at onward
  | prints _ => exact caller
  | calls _ =>
    rw [Machine.LeftAt] at caller ⊢
    rw [Array.getElem?_push_lt (Array.getElem?_eq_some_iff.mp caller).1]
    simpa using caller
  | returns | ends => simp [Instruction.opcode] at onward

theorem Exec.execute_legible {instruction : Instruction} {fault : Fault}
    (innermost : machine.frames.back? = some frame)
    (failed : execute instruction machine = .error fault after) : fault.isLost = false := by
  have leads := execute_leads instruction machine
  rw [failed] at leads
  cases leads with
  | fails _ _ own =>
    cases lost : fault.isLost with
    | true => cases (own lost).symm.trans innermost
    | false => rfl
  | spills | overflows => rfl

theorem Exec.step_loop {distance : Nat} (innermost : machine.frames.back? = some frame)
    (reads : Instruction.decode frame.chunk.code frame.ip = .found (.loop distance)) :
    step machine =
      if frame.ip + 3 < distance then .error .loopBeforeStart (machine.resume frame (frame.ip + 3))
      else .ok none (machine.resume frame (frame.ip + 3 - distance)) := by
  rw [step_eq innermost reads]
  change execute (.loop distance) (machine.resume frame (frame.ip + 3)) = _
  split
  · next before =>
    simp [execute, loop, frame_apply (Machine.innermost_resume _), before]
  · next inside =>
    rw [execute_loop (Machine.innermost_resume _) (Nat.not_lt.mp inside), Machine.resume_resume]

namespace Listing

theorem line_of_target {instruction : Instruction} {target : Int}
    (reads : Instruction.decode frame.chunk.code frame.ip = .found instruction)
    (leads : instruction.target? frame.ip = some target) :
    (Listing.instruction frame.chunk frame.ip).1 =
      jumpLine frame.chunk frame.ip instruction.opcode target := by
  rw [line_eq reads, jumpLine]
  congr 1
  cases instruction with
  | jump distance | jumpIfFalse distance | loop distance =>
    cases leads
    rfl
  | _ => cases leads

theorem tells_jump (innermost : machine.frames.back? = some frame)
    (here : frame.chunk.code[frame.ip]? = some Opcode.jump.toByte)
    (ran : Exec.step machine = .ok result after) :
    ∃ target : Nat, machine.LeftAt frame target after ∧
      (instruction frame.chunk frame.ip).1 = jumpLine frame.chunk frame.ip .jump target := by
  rcases Exec.exists_found innermost here ran with ⟨instruction, same, reads, ran⟩
  cases instruction with
  | jump distance =>
    rw [Exec.execute_jump (Machine.innermost_resume _), Machine.resume_resume] at ran
    cases ran
    have shown := line_of_target reads
      (rfl : Instruction.target? frame.ip (.jump distance) = some _)
    exact ⟨frame.ip + 3 + distance, Machine.leftAt_of_frames_eq rfl, shown⟩
  | _ => cases same

theorem tells_jumpIfFalse {value : Value} (innermost : machine.frames.back? = some frame)
    (here : frame.chunk.code[frame.ip]? = some Opcode.jumpIfFalse.toByte)
    (top : machine.stack.back? = some value) (ran : Exec.step machine = .ok result after) :
    ∃ target : Nat,
      (instruction frame.chunk frame.ip).1 = jumpLine frame.chunk frame.ip .jumpIfFalse target ∧
      machine.LeftAt frame
        (if value.isFalsey then target else (instruction frame.chunk frame.ip).2) after := by
  rcases Exec.exists_found innermost here ran with ⟨instruction, same, reads, ran⟩
  rcases Array.back?_eq_some_iff.mp top with ⟨stack, stackEq⟩
  cases instruction with
  | jumpIfFalse distance =>
    rw [Exec.execute_jumpIfFalse (Machine.innermost_resume _) stackEq,
      Machine.resume_resume] at ran
    cases ran
    have shown := line_of_target reads
      (rfl : Instruction.target? frame.ip (.jumpIfFalse distance) = some _)
    refine ⟨frame.ip + 3 + distance, shown, Machine.leftAt_of_frames_eq ?_⟩
    rw [next_eq reads]
    cases value.isFalsey <;> rfl
  | _ => cases same

theorem tells_loop (innermost : machine.frames.back? = some frame)
    (here : frame.chunk.code[frame.ip]? = some Opcode.loop.toByte)
    (ran : Exec.step machine = .ok result after) :
    ∃ target : Nat, machine.LeftAt frame target after ∧
      (instruction frame.chunk frame.ip).1 = jumpLine frame.chunk frame.ip .loop target := by
  rcases Exec.exists_found innermost here ran with ⟨instruction, same, reads, _⟩
  cases instruction with
  | loop distance =>
    rw [Exec.step_loop innermost reads] at ran
    split at ran
    · cases ran
    · next inside =>
      cases ran
      have shown := line_of_target reads
        (rfl : Instruction.target? frame.ip (.loop distance) = some _)
      rw [← Int.ofNat_sub (Nat.not_lt.mp inside)] at shown
      exact ⟨frame.ip + 3 - distance, Machine.leftAt_of_frames_eq rfl, shown⟩
  | _ => cases same

theorem exists_loop_of_line {target : Int}
    (here : frame.chunk.code[frame.ip]? = some Opcode.loop.toByte)
    (shown : (instruction frame.chunk frame.ip).1 = jumpLine frame.chunk frame.ip .loop target) :
    ∃ distance : Nat, Instruction.decode frame.chunk.code frame.ip = .found (.loop distance) ∧
      target = ((frame.ip + 3 : Nat) : Int) - distance := by
  rcases Instruction.decode_of_opcode here with ⟨instruction, reads, same, _⟩ | ⟨reads, _⟩
  · cases instruction with
    | loop distance =>
      have leads := line_of_target reads
        (rfl : Instruction.target? frame.ip (.loop distance) = some _)
      rw [leads, jumpLine, jumpLine, String.append_right_inj, Instruction.opcode,
        String.append_right_inj, String.append_right_inj] at shown
      exact ⟨distance, reads, (Int.repr_inj.mp shown).symm⟩
    | _ => cases same
  · rw [line_eq reads, jumpLine, String.append_right_inj, told_truncated,
      String.append_right_inj] at shown
    have dash : '-' ∈ (s!"{numberColumn frame.ip} -> {target}").toList := by
      rw [String.toList_append, String.toList_append]
      exact List.mem_append_left _ (List.mem_append_right _ (by decide))
    rw [← shown] at dash
    exact absurd dash (by decide)

theorem tells_beforeStart (innermost : machine.frames.back? = some frame)
    (here : frame.chunk.code[frame.ip]? = some Opcode.loop.toByte) :
    machine.FailsWith "Loop target before start of chunk." ↔
      ∃ target : Int, target < 0 ∧
        (instruction frame.chunk frame.ip).1 = jumpLine frame.chunk frame.ip .loop target := by
  constructor
  · rintro ⟨fault, after, failed, said⟩
    rcases Instruction.decode_of_opcode here with ⟨instruction, reads, same, _⟩ | ⟨reads, _⟩
    · cases instruction with
      | loop distance =>
        have shown := line_of_target reads
          (rfl : Instruction.target? frame.ip (.loop distance) = some _)
        rw [Exec.step_loop innermost reads] at failed
        split at failed
        · exact ⟨_, by omega, shown⟩
        · cases failed
      | _ => cases same
    · rw [Exec.step_of_truncated innermost reads] at failed
      cases failed
      exact absurd said (by decide)
  · rintro ⟨target, negative, shown⟩
    rcases exists_loop_of_line here shown with ⟨distance, reads, rfl⟩
    refine ⟨.loopBeforeStart, machine.resume frame (frame.ip + 3), ?_, rfl⟩
    rw [Exec.step_loop innermost reads, if_pos (by omega)]

theorem tells_unknown (innermost : machine.frames.back? = some frame) (byte : Nat) :
    machine.FailsWith s!"Unknown opcode {byte}." ↔
      (instruction frame.chunk frame.ip).1 = unknownLine frame.chunk frame.ip byte := by
  rw [line_eq rfl, unknownLine, String.append_right_inj, told_eq_unknown_iff]
  constructor
  · rintro ⟨fault, after, failed, said⟩
    cases Fault.eq_unknownOpcode said
    cases reads : Instruction.decode frame.chunk.code frame.ip with
    | unknown found =>
      rw [Exec.step_of_unknown innermost reads] at failed
      cases failed
      exact ⟨found, rfl, rfl⟩
    | found instruction =>
      rw [Exec.step_eq innermost reads] at failed
      cases Exec.execute_legible (Machine.innermost_resume _) failed
    | truncated opcode =>
      rw [Exec.step_of_truncated innermost reads] at failed
      cases failed
    | outside =>
      simp [Exec.step, Exec.fetch_apply innermost, reads] at failed
  · rintro ⟨found, reads, rfl⟩
    exact ⟨_, _, Exec.step_of_unknown innermost reads, rfl⟩

theorem line_eq_truncatedLine_iff {chunk : Chunk Constant} {offset : Nat} {opcode : Opcode}
    (here : chunk.code[offset]? = some opcode.toByte) :
    (instruction chunk offset).1 = truncatedLine chunk offset opcode ↔
      chunk.size < offset + opcode.size := by
  rcases Instruction.decode_of_opcode here with ⟨instruction, reads, rfl, within⟩ | ⟨reads, missing⟩
  · rw [line_eq reads, truncatedLine, String.append_right_inj]
    exact iff_of_false (told_found_ne_truncated _ _) (Nat.not_lt.mpr within)
  · rw [line_eq reads, truncatedLine, told_truncated]
    exact iff_of_true rfl missing

end Listing

end Steps

/--
Whatever bytes a machine runs, the line that a listing has for them tells what the step does. The
offsets of the lines of a listing ascend, so it comes to an end.
-/
theorem step_listed {machine : Machine} {frame : Frame}
    (innermost : machine.frames.back? = some frame) :
    Listing.Tells machine frame ∧ ∀ chunk, Listing.Ascends chunk := by
  refine ⟨?_, Listing.ascends⟩
  exact {
    straight := by
      intro opcode here onward result after ran
      rcases Exec.exists_found innermost here ran with ⟨instruction, rfl, reads, ran⟩
      rw [Listing.next_eq reads]
      exact Exec.leftAt_of_execute onward ran
    jump := fun here _ _ ran => Listing.tells_jump innermost here ran
    taken := by
      intro here value top falsey result after ran
      rcases Listing.tells_jumpIfFalse innermost here top ran with ⟨target, shown, left⟩
      rw [if_pos falsey] at left
      exact ⟨target, left, shown⟩
    untaken := by
      intro here value top truthy result after ran
      rcases Listing.tells_jumpIfFalse innermost here top ran with ⟨target, _, left⟩
      rw [if_neg (by simp [truthy])] at left
      exact left
    loop := fun here _ _ ran => Listing.tells_loop innermost here ran
    beforeStart := Listing.tells_beforeStart innermost
    unknown := Listing.tells_unknown innermost
    truncated := by
      intro opcode here
      refine ⟨(Listing.line_eq_truncatedLine_iff here).symm, ?_⟩
      intro missing
      rcases Instruction.decode_of_opcode here with ⟨_, _, _, within⟩ | ⟨reads, _⟩
      · exact absurd missing (Nat.not_lt.mpr within)
      · exact ⟨.codeEnd, _, Exec.step_of_truncated innermost reads, rfl⟩ }

/-- Code that no compiler writes: a jump back out of the code, a stray byte, half of a jump. -/
def damagedScript : Function :=
  .script { code := #[23, 0, 9, 200, 21, 0], constants := #[], lines := #[], starts := #[] }

/-- A machine that is about to run this code, with nothing else on its stack. -/
def damagedMachine : Machine :=
  (Machine.fresh .default .unlimited).loaded damagedScript

/-- The line of the first instruction shows a target before the code, and the step fails. -/
theorem step_listed_damagedMachine :
    damagedMachine.frames.back? = some ⟨.script 0 damagedScript, 0, 0⟩ ∧
    Listing.Tells damagedMachine ⟨.script 0 damagedScript, 0, 0⟩ ∧
    ∀ chunk, Listing.Ascends chunk :=
  ⟨rfl, step_listed rfl⟩

end StackScript
