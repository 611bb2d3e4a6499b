import StackScript.Opcode

/-!
# Instructions

An instruction is an operation with its operand. The machine reads instructions from code and
a listing shows them, each in its own way; the compiler writes them.
-/

namespace StackScript

/-- An operation with its operand. -/
inductive Instruction where
  | ret
  | constant (index : Nat)
  | negate
  | add
  | subtract
  | multiply
  | divide
  | loadNil
  | loadTrue
  | loadFalse
  | logicalNot
  | equal
  | greater
  | less
  | print
  | pop
  | defineGlobal (index : Nat)
  | setGlobal (index : Nat)
  | getGlobal (index : Nat)
  | getLocal (slot : Nat)
  | setLocal (slot : Nat)
  | jump (distance : Nat)
  | jumpIfFalse (distance : Nat)
  | loop (distance : Nat)
  | call (count : Nat)
deriving DecidableEq, Repr

end StackScript
