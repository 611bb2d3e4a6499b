import StackScript.Machine

/-!
# One step of the machine

A step reads the instruction of the innermost call, moves that call on to the instruction behind it
and then does what the instruction says. It fails on damaged code as well as on what the language
forbids.
-/

namespace StackScript.Exec

/-- Reads the byte that the innermost call has come to and moves on behind it. -/
def readByte : Exec UInt8 := do
  let running ← frame
  match running.chunk.code[running.ip]? with
  | some byte =>
    goTo (running.ip + 1)
    return byte
  | none => throw .codeEnd

/-- Reads two bytes as a number, the upper one first. -/
def readWord : Exec Nat := do
  let upper ← readByte
  let lower ← readByte
  return upper.toNat * 256 + lower.toNat

/-- Reads an operation. -/
def readOpcode : Exec Opcode := do
  let byte ← readByte
  match Opcode.ofByte? byte with
  | some opcode => return opcode
  | none => throw (.unknownOpcode byte.toNat)

/-- Reads the operand of an operation, which comes first in whatever the operation does. -/
def readOperand : Opcode → Exec Instruction
  | .ret => return .ret
  | .constant => return .constant (← readByte).toNat
  | .negate => return .negate
  | .add => return .add
  | .subtract => return .subtract
  | .multiply => return .multiply
  | .divide => return .divide
  | .loadNil => return .loadNil
  | .loadTrue => return .loadTrue
  | .loadFalse => return .loadFalse
  | .logicalNot => return .logicalNot
  | .equal => return .equal
  | .greater => return .greater
  | .less => return .less
  | .print => return .print
  | .pop => return .pop
  | .defineGlobal => return .defineGlobal (← readByte).toNat
  | .setGlobal => return .setGlobal (← readByte).toNat
  | .getGlobal => return .getGlobal (← readByte).toNat
  | .getLocal => return .getLocal (← readByte).toNat
  | .setLocal => return .setLocal (← readByte).toNat
  | .jump => return .jump (← readWord)
  | .jumpIfFalse => return .jumpIfFalse (← readWord)
  | .loop => return .loop (← readWord)
  | .call => return .call (← readByte).toNat

/-- Reads an instruction and moves on behind it. -/
def fetch : Exec Instruction := do
  readOperand (← readOpcode)

/-- The constant at a place in the pool of the running function. -/
def constant (index : Nat) : Exec Constant := do
  match (← frame).chunk.constants[index]? with
  | some entry => return entry
  | none => throw (.missingConstant index)

/-- The name at a place in the pool of the running function. -/
def name (index : Nat) : Exec String := do
  match ← constant index with
  | .string text => return text
  | other => throw (.nameNotText other.typeName)

/-- The place in the stack of a slot of the running function. -/
def place (slot : Nat) : Exec Nat := do
  let index := (← frame).base + slot
  if index < (← get).stack.size then return index else throw (.missingLocal slot)

/-- Loads a constant. -/
def loadConstant (index : Nat) : Exec Unit := do
  let entry ← constant index
  push ((← frame).callee.load index entry)

/-- Replaces the top of the stack, which has to be a number, by its negative. -/
def negate : Exec Unit := do
  match ← pop with
  | .number value => push (.number (-value))
  | _ => throw .operandNotNumber

def logicalNot : Exec Unit := do
  let value ← pop
  push (.bool value.isFalsey)

def add : Exec Unit := do
  let right ← pop
  let left ← pop
  match left, right with
  | .number left, .number right => push (.number (left + right))
  | .string left, .string right => push (.string (left ++ right))
  | _, _ => throw .operandsNotAddable

/-- An operation on two numbers. -/
def numeric (operation : Float → Float → Value) : Exec Unit := do
  let right ← pop
  let left ← pop
  match left, right with
  | .number left, .number right => push (operation left right)
  | _, _ => throw .operandsNotNumbers

def equal : Exec Unit := do
  let right ← pop
  let left ← pop
  push (.bool (Value.same left right))

/-- Hands a text over to the output. -/
def write (text : String) : Exec Unit := fun machine =>
  match machine.sink.write text with
  | (sink, none) => .ok () { machine with sink }
  | (sink, some reason) => .error (.outputFailed reason) { machine with sink }

/-- Prints the top of the stack on a line of its own. -/
def print : Exec Unit := do
  let value ← pop
  write (Value.display value ++ "\n")

/-- Gives a global variable a value, whether or not it has one already. -/
def defineGlobal (index : Nat) : Exec Unit := do
  let variableName ← name index
  let value ← pop
  modify fun machine => { machine with globals := machine.globals.insert variableName value }

/-- Loads a global variable. -/
def getGlobal (index : Nat) : Exec Unit := do
  let variableName ← name index
  match (← get).globals[variableName]? with
  | some value => push value
  | none => throw (.undefinedVariable variableName)

/-- Gives the value on top of the stack to a global variable that has a value already. -/
def setGlobal (index : Nat) : Exec Unit := do
  let variableName ← name index
  let value ← peek
  if (← get).globals.contains variableName then
    modify fun machine => { machine with globals := machine.globals.insert variableName value }
  else
    throw (.undefinedVariable variableName)

/-- Loads a slot. -/
def getLocal (slot : Nat) : Exec Unit := do
  let index ← place slot
  match (← get).stack[index]? with
  | some value => push value
  | none => throw (.missingLocal slot)

/-- Assigns to a slot. -/
def setLocal (slot : Nat) : Exec Unit := do
  let index ← place slot
  let value ← peek
  modify fun machine => { machine with stack := machine.stack.setIfInBounds index value }

/-- Jumps forward. -/
def jump (distance : Nat) : Exec Unit := do
  goTo ((← frame).ip + distance)

/-- Goes on `distance` bytes further if the top of the stack counts as false. -/
def jumpIfFalse (distance : Nat) : Exec Unit := do
  if (← peek).isFalsey then jump distance

/-- Jumps back. -/
def loop (distance : Nat) : Exec Unit := do
  let running ← frame
  if running.ip < distance then throw .loopBeforeStart else goTo (running.ip - distance)

/-- Calls the function below `count` arguments, which become its first slots. -/
def call (count : Nat) : Exec Unit := do
  let machine ← get
  if machine.stack.size < count + 1 then
    throw .stackUnderflow
  let base := machine.stack.size - (count + 1)
  match machine.stack[base]? with
  | some (.function callee) =>
    if callee.function.arity ≠ count then
      throw (.wrongArgumentCount callee.function.arity count)
    else if machine.config.maxFrames ≤ machine.frames.size then
      throw .stackOverflow
    else
      modify fun machine => { machine with frames := machine.frames.push ⟨callee, 0, base⟩ }
  | _ => throw .notCallable

/-- Ends the innermost call: discards its slots and, if that call was the script, gives `result`. -/
def leave (result : Value) : Exec (Option Value) := do
  let left ← frame
  modify fun machine =>
    { machine with frames := machine.frames.pop, stack := machine.stack.shrink left.base }
  if (← get).frames.isEmpty then
    return some result
  else
    push result
    return none

/-- Returns the top of the stack from the innermost call. -/
def ret : Exec (Option Value) := do
  leave (← pop)

/-- Does what an instruction says; gives the result of the program once it has one. -/
def execute : Instruction → Exec (Option Value)
  | .ret => ret
  | .constant index => do loadConstant index; return none
  | .negate => do negate; return none
  | .add => do add; return none
  | .subtract => do numeric (fun left right => .number (left - right)); return none
  | .multiply => do numeric (fun left right => .number (left * right)); return none
  | .divide => do numeric (fun left right => .number (left / right)); return none
  | .loadNil => do push .nil; return none
  | .loadTrue => do push (.bool true); return none
  | .loadFalse => do push (.bool false); return none
  | .logicalNot => do logicalNot; return none
  | .equal => do equal; return none
  | .greater => do numeric (fun left right => .bool (right < left)); return none
  | .less => do numeric (fun left right => .bool (left < right)); return none
  | .print => do print; return none
  | .pop => do let _ ← pop; return none
  | .defineGlobal index => do defineGlobal index; return none
  | .setGlobal index => do setGlobal index; return none
  | .getGlobal index => do getGlobal index; return none
  | .getLocal slot => do getLocal slot; return none
  | .setLocal slot => do setLocal slot; return none
  | .jump distance => do jump distance; return none
  | .jumpIfFalse distance => do jumpIfFalse distance; return none
  | .loop distance => do loop distance; return none
  | .call count => do call count; return none

/-- One step of the machine. -/
def step : Exec (Option Value) := do
  execute (← fetch)

end StackScript.Exec
