import StackScript.Opcode

/-!
# Chunks of code

A chunk is the code of one function with what the code refers to: a pool of constants and, for every
instruction, its first byte and its source line. It grows at its end only; a word inside it can be
overwritten, which is how forward jumps get their distance.
-/

namespace StackScript

/-- The code of one function, with constants of type `κ`. -/
structure Chunk (κ : Type) where
  /-- Operations and operands, one byte each unless the operand is a word. -/
  code : Array UInt8
  constants : Array κ
  /-- The source line of each instruction. -/
  lines : Array Nat
  /-- The first byte of each instruction. -/
  starts : Array Nat
deriving Inhabited

namespace Chunk

variable {κ : Type}

def empty : Chunk κ :=
  ⟨#[], #[], #[], #[]⟩

def size (chunk : Chunk κ) : Nat :=
  chunk.code.size

/-- Starts a new instruction that stems from `line`. -/
def writeOpcode (chunk : Chunk κ) (opcode : Opcode) (line : Nat) : Chunk κ :=
  let start := chunk.code.size
  { chunk with
    code := chunk.code.push opcode.toByte
    lines := chunk.lines.push line
    starts := chunk.starts.push start }

/-- Appends a byte of code. -/
def writeByte (chunk : Chunk κ) (byte : UInt8) : Chunk κ :=
  { chunk with code := chunk.code.push byte }

/-- The upper and the lower byte of a word. -/
def wordBytes (word : Nat) : UInt8 × UInt8 :=
  (UInt8.ofNat (word / 256), UInt8.ofNat word)

/-- Adds an operand word to the last instruction, upper byte first. -/
def writeWord (chunk : Chunk κ) (word : Nat) : Chunk κ :=
  (chunk.writeByte (wordBytes word).1).writeByte (wordBytes word).2

/-- Overwrites the word at `offset`. -/
def patchWord (chunk : Chunk κ) (offset word : Nat) : Chunk κ :=
  { chunk with
    code := (chunk.code.setIfInBounds offset (wordBytes word).1).setIfInBounds (offset + 1)
      (wordBytes word).2 }

/-- The word at `offset`; `none` if the code ends before it does. -/
def readWord? (code : Array UInt8) (offset : Nat) : Option Nat := do
  let upper ← code[offset]?
  let lower ← code[offset + 1]?
  return 256 * upper.toNat + lower.toNat

/-- How many constants a byte can number. -/
def maxConstants : Nat := 256

/-- Adds a constant to the pool and gives its number; `none` if the pool is full. -/
def addConstant? (chunk : Chunk κ) (constant : κ) : Option (UInt8 × Chunk κ) :=
  if chunk.constants.size < maxConstants then
    some (UInt8.ofNat chunk.constants.size,
      { chunk with constants := chunk.constants.push constant })
  else none

end Chunk

end StackScript
