/-!
# Operation codes

The instruction set. Every operation has a byte, a name for listings and a fixed number of
operand bytes behind its own byte.
-/

namespace StackScript

/-- The operations of the machine, in the order of their bytes. -/
inductive Opcode where
  | ret
  | constant
  | negate
  | add
  | subtract
  | multiply
  | divide
  | loadNil
  | loadTrue
  | loadFalse
  | logicalNot
  | equal
  | greater
  | less
  | print
  | pop
  | defineGlobal
  | setGlobal
  | getGlobal
  | getLocal
  | setLocal
  | jump
  | jumpIfFalse
  | loop
  | call
deriving DecidableEq, Repr

namespace Opcode

def all : Array Opcode :=
  #[ret, constant, negate, add, subtract, multiply, divide, loadNil, loadTrue, loadFalse,
    logicalNot, equal, greater, less, print, pop, defineGlobal, setGlobal, getGlobal, getLocal,
    setLocal, jump, jumpIfFalse, loop, call]

/-- The byte that stands for an operation in code. -/
def toByte : Opcode → UInt8
  | ret => 0
  | constant => 1
  | negate => 2
  | add => 3
  | subtract => 4
  | multiply => 5
  | divide => 6
  | loadNil => 7
  | loadTrue => 8
  | loadFalse => 9
  | logicalNot => 10
  | equal => 11
  | greater => 12
  | less => 13
  | print => 14
  | pop => 15
  | defineGlobal => 16
  | setGlobal => 17
  | getGlobal => 18
  | getLocal => 19
  | setLocal => 20
  | jump => 21
  | jumpIfFalse => 22
  | loop => 23
  | call => 24

/-- The operation that a byte stands for. -/
def ofByte? (byte : UInt8) : Option Opcode :=
  all[byte.toNat]?

def name : Opcode → String
  | ret => "OP_RETURN"
  | constant => "OP_CONSTANT"
  | negate => "OP_NEGATE"
  | add => "OP_ADD"
  | subtract => "OP_SUB"
  | multiply => "OP_MUL"
  | divide => "OP_DIV"
  | loadNil => "OP_NIL"
  | loadTrue => "OP_TRUE"
  | loadFalse => "OP_FALSE"
  | logicalNot => "OP_NOT"
  | equal => "OP_EQUAL"
  | greater => "OP_GREATER"
  | less => "OP_LESS"
  | print => "OP_PRINT"
  | pop => "OP_POP"
  | defineGlobal => "OP_DEFINE_GLOBAL"
  | setGlobal => "OP_SET_GLOBAL"
  | getGlobal => "OP_GET_GLOBAL"
  | getLocal => "OP_GET_LOCAL"
  | setLocal => "OP_SET_LOCAL"
  | jump => "OP_JUMP"
  | jumpIfFalse => "OP_JUMP_IF_FALSE"
  | loop => "OP_LOOP"
  | call => "OP_CALL"

/-- The number of operand bytes behind the byte of the operation. -/
def operandSize : Opcode → Nat
  | constant | defineGlobal | setGlobal | getGlobal | getLocal | setLocal | call => 1
  | jump | jumpIfFalse | loop => 2
  | _ => 0

/-- The bytes of an instruction. -/
def size (opcode : Opcode) : Nat :=
  1 + opcode.operandSize

theorem size_pos (opcode : Opcode) : 0 < opcode.size :=
  Nat.lt_of_lt_of_le Nat.one_pos (Nat.le_add_right 1 _)

@[simp] theorem ofByte?_toByte (opcode : Opcode) : ofByte? opcode.toByte = some opcode := by
  cases opcode <;> rfl

end Opcode

end StackScript
