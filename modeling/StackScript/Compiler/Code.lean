import StackScript.Compiler

/-!
# Writing code

Instructions are written at the end of the code, under the line of the token that was read last. A
forward jump is written with a placeholder for its distance, which is filled in once its target is
known.
-/

namespace StackScript.Compile

def codeSize : Compile Nat := fun compiler =>
  .ok compiler.draft.chunk.size compiler

/-- Writes an operation without operand. -/
def emit (opcode : Opcode) : Compile Unit := fun compiler =>
  .ok () (compiler.onChunk (·.writeOpcode opcode compiler.previous.line))

/-- Writes an operation with a byte. -/
def emitWith (opcode : Opcode) (operand : UInt8) : Compile Unit := fun compiler =>
  .ok () (compiler.onChunk fun chunk =>
    (chunk.writeOpcode opcode compiler.previous.line).writeByte operand)

/-- Writes an instruction that discards the top of the stack, `count` times. -/
def emitPops : Nat → Compile Unit
  | 0 => pure ()
  | count + 1 => do
    emit .pop
    emitPops count

/-- Writes a return of nil. -/
def emitReturn : Compile Unit := do
  emit .loadNil
  emit .ret

/-- Puts a constant into the pool. -/
def makeConstant (constant : Constant) : Compile UInt8 := fun compiler =>
  match compiler.draft.chunk.addConstant? constant with
  | some (index, chunk) => .ok index (compiler.onChunk fun _ => chunk)
  | none => .error (.atToken compiler.previous .tooManyConstants) compiler

/-- Writes the load of a constant. -/
def emitConstant (constant : Constant) : Compile Unit := do
  let index ← makeConstant constant
  emitWith .constant index

/-- The place of a name in the pool; a name gets a place when it is first asked for. -/
def nameConstant (name : String) : Compile UInt8 := do
  match (← get).draft.names[name]? with
  | some index => return index
  | none =>
    let index ← makeConstant (.string name)
    modify (·.onDraft fun draft => { draft with names := draft.names.insert name index })
    return index

/-- How far a jump can lead. -/
def maxDistance : Nat := 65535

/-- What is written for a distance that is not known yet. -/
def placeholder : Nat := 65535

/-- Writes a forward jump and gives the offset of its placeholder. -/
def emitJump (opcode : Opcode) : Compile Nat := do
  emit opcode
  modify (·.onChunk (·.writeWord placeholder))
  return (← codeSize) - 2

/-- Makes the jump with its placeholder at `offset` lead to the end of the code. -/
def patchJump (offset : Nat) : Compile Unit := do
  let size ← codeSize
  if size < offset + 2 then
    fail .misplacedJump
  else if maxDistance < size - offset - 2 then
    fail .jumpTooLarge
  else
    modify (·.onChunk (·.patchWord offset (size - offset - 2)))

/-- Writes a jump back to `start`. The distance counts from behind the operand. -/
def emitLoop (start : Nat) : Compile Unit := do
  emit .loop
  let stop := (← codeSize) + 2
  if stop < start then
    fail .misplacedJump
  else if maxDistance < stop - start then
    fail .loopTooLarge
  else
    modify (·.onChunk (·.writeWord (stop - start)))

end StackScript.Compile
