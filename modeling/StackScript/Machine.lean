import Std.Data.TreeMap
import StackScript.Fault
import StackScript.Instruction
import StackScript.Sink
import StackScript.Value

/-!
# The machine

A machine holds a stack of values, a frame for every call that is going on, the global variables and
the output. The global variables and the output outlast a run; stack and frames are empty between
runs.
-/

namespace StackScript

/-- The bounds of a machine. -/
structure Config where
  /-- The greatest number of values on the stack. -/
  stackSize : Nat
  /-- The greatest number of calls that can be going on, the script included. -/
  maxFrames : Nat

namespace Config

/-- The number of slots that a frame can address. -/
def frameSlots : Nat := 256

/-- The number of calls that can be going on unless told otherwise. -/
def defaultMaxFrames : Nat := 64

def default : Config :=
  ⟨frameSlots * defaultMaxFrames, defaultMaxFrames⟩

end Config

/-- A call that is going on. -/
structure Frame where
  callee : Callable
  /-- The offset of the next instruction. -/
  ip : Nat
  /-- The place of slot zero in the stack, which holds the callee. -/
  base : Nat

/-- The code of a call. -/
def Frame.chunk (frame : Frame) : Chunk Constant :=
  frame.callee.function.chunk

/-- Global variables by name. -/
abbrev Globals := Std.TreeMap String Value

/-- The state of a machine. -/
structure Machine where
  config : Config
  /-- The values, from the bottom to the top. -/
  stack : Array Value
  /-- The calls, from the script to the innermost one. -/
  frames : Array Frame
  globals : Globals
  sink : Sink
  /-- The number of programs loaded so far. -/
  runs : Nat

namespace Machine

/-- A machine that has run nothing. -/
def fresh (config : Config) (sink : Sink) : Machine :=
  ⟨config, #[], #[], ∅, sink, 0⟩

/-- Empties the stack and ends all calls. -/
def reset (machine : Machine) : Machine :=
  { machine with stack := #[], frames := #[] }

end Machine

/-- An action of the machine; a fault keeps the state in which it arose. -/
abbrev Exec := EStateM Fault Machine

namespace Exec

/-- Puts a value on the stack. -/
def push (value : Value) : Exec Unit := fun machine =>
  if machine.stack.size < machine.config.stackSize then
    .ok () { machine with stack := machine.stack.push value }
  else .error .stackOverflow machine

/-- Takes the top value. -/
def pop : Exec Value := fun machine =>
  match machine.stack.back? with
  | some value => .ok value { machine with stack := machine.stack.pop }
  | none => .error .stackUnderflow machine

/-- The top of the stack, left where it is. -/
def peek : Exec Value := fun machine =>
  match machine.stack.back? with
  | some value => .ok value machine
  | none => .error .stackUnderflow machine

/-- The innermost call. -/
def frame : Exec Frame := fun machine =>
  match machine.frames.back? with
  | some frame => .ok frame machine
  | none => .error .noActiveFrame machine

/-- Makes the innermost call go on at `ip`. -/
def goTo (ip : Nat) : Exec Unit := fun machine =>
  match machine.frames.back? with
  | some frame => .ok () { machine with frames := machine.frames.pop.push { frame with ip } }
  | none => .error .noActiveFrame machine

end Exec

end StackScript
