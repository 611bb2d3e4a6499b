/-!
# Faults

Why a running program stops. Most faults are the program's own; the internal ones say that the
code itself is damaged. The wording of every fault is in this file.
-/

namespace StackScript

/-- Whose fault it is that a program stopped. -/
inductive ErrorCode where
  /-- The program did what the language forbids. -/
  | runtime
  /-- The code is not what a compiler would produce. -/
  | internal
deriving DecidableEq, Repr

def ErrorCode.display : ErrorCode → String
  | runtime => "Runtime error"
  | internal => "Internal error"

/-- A report: whose fault it is and what happened. -/
structure Status where
  code : ErrorCode
  message : String
deriving DecidableEq, Repr

namespace Status

/-- A report in one line. -/
def display (status : Status) : String :=
  s!"{status.code.display}: {status.message}"

/-- A report in one line, with the source line that was running. -/
def displayAt (status : Status) (line : Nat) : String :=
  s!"{status.display} [line {line}]"

end Status

/-- What can stop a program. -/
inductive Fault where
  | operandNotNumber
  | operandsNotNumbers
  | operandsNotAddable
  | undefinedVariable (name : String)
  | notCallable
  | wrongArgumentCount (arity count : Nat)
  | stackOverflow
  | outputFailed (reason : String)
  | stackUnderflow
  | noActiveFrame
  | codeEnd
  | unknownOpcode (byte : Nat)
  | missingConstant (index : Nat)
  | nameNotText (typeName : String)
  | missingLocal (slot : Nat)
  | loopBeforeStart
deriving DecidableEq, Repr

namespace Fault

/-- Whose fault it is. -/
def code : Fault → ErrorCode
  | operandNotNumber | operandsNotNumbers | operandsNotAddable | undefinedVariable _
  | notCallable | wrongArgumentCount _ _ | stackOverflow | outputFailed _ => .runtime
  | stackUnderflow | noActiveFrame | codeEnd | unknownOpcode _ | missingConstant _
  | nameNotText _ | missingLocal _ | loopBeforeStart => .internal

/-- The wording of a fault. -/
def message : Fault → String
  | operandNotNumber => "Operand must be a number."
  | operandsNotNumbers => "Operands must be numbers."
  | operandsNotAddable => "Operands must be two numbers or two strings."
  | undefinedVariable name => s!"Undefined variable '{name}'."
  | notCallable => "Can only call functions."
  | wrongArgumentCount arity count => s!"Expected {arity} arguments but got {count}."
  | stackOverflow => "Stack overflow."
  | outputFailed reason => s!"Failed to write output: {reason}"
  | stackUnderflow => "Stack underflow."
  | noActiveFrame => "No active call frame."
  | codeEnd => "Instruction pointer out of bounds."
  | unknownOpcode byte => s!"Unknown opcode {byte}."
  | missingConstant index => s!"Constant index {index} out of range."
  | nameNotText typeName => s!"Expected a variable name constant, found {typeName}."
  | missingLocal slot => s!"Local slot {slot} out of range."
  | loopBeforeStart => "Loop target before start of chunk."

/-- The status that a fault is reported as. -/
def status (fault : Fault) : Status :=
  ⟨fault.code, fault.message⟩

end Fault

/-- A fault with the source line of the instruction that raised it. -/
structure Failure where
  fault : Fault
  line : Nat
deriving DecidableEq, Repr

/-- The failure as it is shown. -/
def Failure.display (failure : Failure) : String :=
  failure.fault.status.displayAt failure.line

end StackScript
