import StackScript.Chunk
import StackScript.Instruction

/-!
# Instructions in code

Writing an instruction adds its bytes to the end of a chunk, and reading it there gives it back.
Code is well cut if reading it from its first byte meets exactly the offsets at which its
instructions were started.
-/

namespace StackScript

namespace Instruction

/-- The operation of an instruction. -/
def opcode : Instruction → Opcode
  | ret => .ret
  | constant _ => .constant
  | negate => .negate
  | add => .add
  | subtract => .subtract
  | multiply => .multiply
  | divide => .divide
  | loadNil => .loadNil
  | loadTrue => .loadTrue
  | loadFalse => .loadFalse
  | logicalNot => .logicalNot
  | equal => .equal
  | greater => .greater
  | less => .less
  | print => .print
  | pop => .pop
  | defineGlobal _ => .defineGlobal
  | setGlobal _ => .setGlobal
  | getGlobal _ => .getGlobal
  | getLocal _ => .getLocal
  | setLocal _ => .setLocal
  | jump _ => .jump
  | jumpIfFalse _ => .jumpIfFalse
  | loop _ => .loop
  | call _ => .call

def size (instruction : Instruction) : Nat :=
  instruction.opcode.size

/-- The offset that a jump at `offset` leads to; a jump back may lead out of the code. -/
def target? (offset : Nat) : Instruction → Option Int
  | jump distance | jumpIfFalse distance => some ((offset + 3 + distance : Nat) : Int)
  | loop distance => some (((offset + 3 : Nat) : Int) - (distance : Int))
  | _ => none

end Instruction

namespace Opcode

attribute [local simp] operandSize

/-- The instruction with this operation; the operand counts only if the operation has one. -/
def instruction (opcode : Opcode) (operand : Nat) : Instruction :=
  match opcode with
  | ret => .ret
  | constant => .constant operand
  | negate => .negate
  | add => .add
  | subtract => .subtract
  | multiply => .multiply
  | divide => .divide
  | loadNil => .loadNil
  | loadTrue => .loadTrue
  | loadFalse => .loadFalse
  | logicalNot => .logicalNot
  | equal => .equal
  | greater => .greater
  | less => .less
  | print => .print
  | pop => .pop
  | defineGlobal => .defineGlobal operand
  | setGlobal => .setGlobal operand
  | getGlobal => .getGlobal operand
  | getLocal => .getLocal operand
  | setLocal => .setLocal operand
  | jump => .jump operand
  | jumpIfFalse => .jumpIfFalse operand
  | loop => .loop operand
  | call => .call operand

/-- The bytes of an operand. -/
def operandBytes (opcode : Opcode) (operand : Nat) : List UInt8 :=
  match opcode.operandSize with
  | 0 => []
  | 1 => [UInt8.ofNat operand]
  | _ => [(Chunk.wordBytes operand).1, (Chunk.wordBytes operand).2]

/-- The bytes of an instruction. -/
def bytes (opcode : Opcode) (operand : Nat) : List UInt8 :=
  opcode.toByte :: opcode.operandBytes operand

@[simp] theorem opcode_instruction (opcode : Opcode) (operand : Nat) :
    (opcode.instruction operand).opcode = opcode := by
  cases opcode <;> rfl

@[simp] theorem size_instruction (opcode : Opcode) (operand : Nat) :
    (opcode.instruction operand).size = opcode.size := by
  simp [Instruction.size]

@[simp] theorem length_bytes (opcode : Opcode) (operand : Nat) :
    (opcode.bytes operand).length = opcode.size := by
  cases opcode <;> rfl

end Opcode

namespace Chunk

theorem readWord?_wordBytes {code : Array UInt8} {offset word : Nat} (small : word < 65536)
    (upper : code[offset]? = some (wordBytes word).1)
    (lower : code[offset + 1]? = some (wordBytes word).2) :
    readWord? code offset = some word := by
  simp only [readWord?, upper, lower, wordBytes, bind, Option.bind, pure]
  simp only [UInt8.toNat_ofNat', Nat.reducePow]
  congr 1
  omega

end Chunk

namespace Instruction

variable {code : Array UInt8} {offset : Nat} {opcode : Opcode}

/-- What stands in code at some offset. -/
inductive Decoded where
  /-- The offset lies behind the last byte. -/
  | outside
  /-- The byte stands for no operation. -/
  | unknown (byte : UInt8)
  /-- The code ends before the operand of the operation does. -/
  | truncated (opcode : Opcode)
  | found (instruction : Instruction)
deriving DecidableEq, Repr

/-- The operand of an operation at `offset`, zero if it has none. -/
def operand? (code : Array UInt8) (offset : Nat) (opcode : Opcode) : Option Nat :=
  match opcode.operandSize with
  | 0 => some 0
  | 1 => code[offset + 1]?.map UInt8.toNat
  | _ => Chunk.readWord? code (offset + 1)

/-- What stands at `offset`: an operation and the operand that belongs to it. -/
def decode (code : Array UInt8) (offset : Nat) : Decoded :=
  match code[offset]? with
  | none => .outside
  | some byte =>
    match Opcode.ofByte? byte with
    | none => .unknown byte
    | some opcode =>
      match operand? code offset opcode with
      | none => .truncated opcode
      | some operand => .found (opcode.instruction operand)

theorem decode_of_operand {operand : Nat} (first : code[offset]? = some opcode.toByte)
    (found : operand? code offset opcode = some operand) :
    decode code offset = .found (opcode.instruction operand) := by
  simp only [decode, first, Opcode.ofByte?_toByte, found]

/-- Whether the bytes of an instruction stand in code at `offset`. -/
def Stands (code : Array UInt8) (offset : Nat) (opcode : Opcode) (operand : Nat) : Prop :=
  ∀ place byte, (opcode.bytes operand)[place]? = some byte → code[offset + place]? = some byte

/-- An instruction is read as it was written, if its operand is as small as its bytes allow. -/
theorem decode_of_stands {operand : Nat} (small : operand < Nat.pow 256 opcode.operandSize)
    (stands : Stands code offset opcode operand) :
    decode code offset = .found (opcode.instruction operand) := by
  apply decode_of_operand (stands 0 opcode.toByte rfl)
  cases opcode
  case constant | defineGlobal | setGlobal | getGlobal | getLocal | setLocal | call =>
    have second : code[offset + 1]? = some (UInt8.ofNat operand) := stands 1 _ rfl
    have restored : (UInt8.ofNat operand).toNat = operand := by
      simp only [UInt8.toNat_ofNat', Nat.reducePow]
      exact Nat.mod_eq_of_lt small
    simp only [operand?, Opcode.operandSize, second, Option.map_some, restored]
  case jump | jumpIfFalse | loop =>
    exact Chunk.readWord?_wordBytes small (stands 1 _ rfl) (stands 2 _ rfl)
  all_goals
    cases Nat.lt_one_iff.mp small
    rfl

theorem decode_of_word {distance : Nat} (wide : opcode.operandSize = 2)
    (first : code[offset]? = some opcode.toByte)
    (word : Chunk.readWord? code (offset + 1) = some distance) :
    decode code offset = .found (opcode.instruction distance) := by
  apply decode_of_operand first
  rw [operand?, wide]
  exact word

end Instruction

/-- Whether reading code from `start` on meets exactly `offsets` and then comes to `stop`. -/
inductive Walk (code : Array UInt8) : Nat → List Nat → Nat → Prop where
  | done (stop : Nat) : Walk code stop [] stop
  | step {start stop : Nat} {offsets : List Nat} {instruction : Instruction}
      (reads : Instruction.decode code start = .found instruction)
      (onward : Walk code (start + instruction.size) offsets stop) :
      Walk code start (start :: offsets) stop

namespace Walk

variable {code : Array UInt8} {start middle stop : Nat} {offsets others : List Nat}

theorem append (first : Walk code start offsets middle) (second : Walk code middle others stop) :
    Walk code start (offsets ++ others) stop := by
  induction first with
  | done => exact second
  | step reads _ ih => exact .step reads (ih second)

theorem le (walk : Walk code start offsets stop) : start ≤ stop := by
  induction walk with
  | done => exact Nat.le_refl _
  | step => omega

theorem lt_of_mem (walk : Walk code start offsets stop) {offset : Nat}
    (present : offset ∈ offsets) : start ≤ offset ∧ offset < stop := by
  induction walk with
  | done => simp at present
  | step reads onward ih =>
    rename_i instruction
    have positive : 0 < instruction.size := Opcode.size_pos instruction.opcode
    have ahead := onward.le
    rcases List.mem_cons.mp present with rfl | later
    · omega
    · have bounds := ih later
      omega

end Walk

end StackScript
