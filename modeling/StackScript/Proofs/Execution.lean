import StackScript.Machine.Run
import StackScript.Proofs.Layout
import StackScript.Proofs.Semantics

/-!
# What instructions do

For every instruction, what it does to a machine that has what the instruction asks for. What
remains is what the language itself can forbid, and that the stack may be full.
-/

namespace StackScript

namespace Progress

variable {progress : Progress}

def ended : Progress → Bool
  | running _ => false
  | finished _ _ => true

theorem exists_finished (ends : progress.ended = true) :
    ∃ outcome last, progress = .finished outcome last := by
  cases progress with
  | running machine => cases ends
  | finished outcome last => exact ⟨outcome, last, rfl⟩

theorem eq_running (goes : progress.ended = false) : progress = .running progress.machine := by
  cases progress with
  | running machine => rfl
  | finished outcome last => cases goes

end Progress

namespace Machine

def resume (machine : Machine) (frame : Frame) (ip : Nat) : Machine :=
  { machine with frames := machine.frames.pop.push { frame with ip } }

variable {machine : Machine} {frame : Frame}

theorem frames_eq_push {frames : Array Frame} (innermost : frames.back? = some frame) :
    frames = frames.pop.push frame := by
  rcases Array.back?_eq_some_iff.mp innermost with ⟨rest, rfl⟩
  rw [Array.pop_push]

@[simp] theorem resume_stack (ip : Nat) : (machine.resume frame ip).stack = machine.stack := rfl

@[simp] theorem resume_globals (ip : Nat) : (machine.resume frame ip).globals = machine.globals :=
  rfl

@[simp] theorem resume_config (ip : Nat) : (machine.resume frame ip).config = machine.config := rfl

@[simp] theorem resume_sink (ip : Nat) : (machine.resume frame ip).sink = machine.sink := rfl

@[simp] theorem resume_frames (ip : Nat) :
    (machine.resume frame ip).frames = machine.frames.pop.push { frame with ip } := rfl

@[simp] theorem resume_resume (ip next : Nat) :
    (machine.resume frame ip).resume { frame with ip } next = machine.resume frame next := by
  simp [resume]

theorem innermost_resume (ip : Nat) :
    (machine.resume frame ip).frames.back? = some { frame with ip } :=
  Array.back?_push

theorem resume_self (innermost : machine.frames.back? = some frame) :
    machine.resume frame frame.ip = machine := by
  rw [resume, ← frames_eq_push innermost]

end Machine

namespace Exec

variable {α β : Type} {machine : Machine} {frame : Frame} {stack : Array Value} {value : Value}
  {index slot : Nat} {text : String} {instruction : Instruction} {entry : Constant}

@[simp] theorem bind_apply (action : Exec α) (next : α → Exec β) (machine : Machine) :
    (action >>= next) machine =
      match action machine with
      | .ok value after => next value after
      | .error fault after => .error fault after := by
  change EStateM.bind action next machine = _
  rw [EStateM.bind]
  cases action machine <;> rfl

@[simp] theorem map_apply (change : α → β) (action : Exec α) (machine : Machine) :
    (change <$> action) machine =
      match action machine with
      | .ok value after => .ok (change value) after
      | .error fault after => .error fault after := by
  change EStateM.map change action machine = _
  rw [EStateM.map]
  cases action machine <;> rfl

@[simp] theorem pure_apply (value : α) (machine : Machine) :
    (pure value : Exec α) machine = .ok value machine := rfl

@[simp] theorem throw_apply (fault : Fault) (machine : Machine) :
    (throw fault : Exec α) machine = .error fault machine := rfl

@[simp] theorem get_apply (machine : Machine) :
    (get : Exec Machine) machine = .ok machine machine :=
  rfl

@[simp] theorem modify_apply (change : Machine → Machine) (machine : Machine) :
    (modify change : Exec Unit) machine = .ok () (change machine) := rfl

/-- Puts a value as an instruction does. -/
def put (value : Value) : Exec (Option Value) := do
  push value
  return none

theorem put_apply (value : Value) (machine : Machine) :
    put value machine =
      if machine.stack.size < machine.config.stackSize then
        .ok none { machine with stack := machine.stack.push value }
      else .error .stackOverflow machine := by
  by_cases room : machine.stack.size < machine.config.stackSize
  · simp [put, push, room]
  · simp [put, push, room]

theorem pop_apply (top : machine.stack = stack.push value) :
    pop machine = .ok value { machine with stack } := by
  simp [pop, top]

theorem peek_apply (top : machine.stack = stack.push value) : peek machine = .ok value machine := by
  simp [peek, top]

/-! ## Reading -/

theorem readByte_resume (ip : Nat) :
    readByte (machine.resume frame ip) =
      match frame.chunk.code[ip]? with
      | some byte => .ok byte (machine.resume frame (ip + 1))
      | none => .error .codeEnd (machine.resume frame ip) := by
  have code : ({ frame with ip } : Frame).chunk = frame.chunk := rfl
  cases here : frame.chunk.code[ip]? <;>
    simp [readByte, Exec.frame, goTo, code, here, Machine.resume]

/-- A word that the code breaks off in is read up to the end of the code. -/
theorem readWord_resume (ip : Nat) :
    readWord (machine.resume frame ip) =
      match Chunk.readWord? frame.chunk.code ip with
      | some word => .ok word (machine.resume frame (ip + 2))
      | none => .error .codeEnd (machine.resume frame (max ip frame.chunk.size)) := by
  cases upper : frame.chunk.code[ip]? with
  | none =>
    have ended : frame.chunk.size ≤ ip := Array.getElem?_eq_none_iff.mp upper
    simp [readWord, readByte_resume, Chunk.readWord?, upper, Nat.max_eq_left ended]
  | some first =>
    have inside : ip < frame.chunk.size := (Array.getElem?_eq_some_iff.mp upper).1
    cases lower : frame.chunk.code[ip + 1]? with
    | none =>
      have ended : frame.chunk.size ≤ ip + 1 := Array.getElem?_eq_none_iff.mp lower
      have last : max ip frame.chunk.size = ip + 1 := by omega
      simp [readWord, readByte_resume, Chunk.readWord?, upper, lower, last]
    | some second =>
      simp [readWord, readByte_resume, Chunk.readWord?, upper, lower, Nat.mul_comm]

theorem readOperand_resume (opcode : Opcode) (ip : Nat) :
    readOperand opcode (machine.resume frame (ip + 1)) =
      match Instruction.operand? frame.chunk.code ip opcode with
      | some operand => .ok (opcode.instruction operand) (machine.resume frame (ip + opcode.size))
      | none => .error .codeEnd (machine.resume frame (max (ip + 1) frame.chunk.size)) := by
  cases opcode
  case constant | defineGlobal | setGlobal | getGlobal | getLocal | setLocal | call =>
    cases operand : frame.chunk.code[ip + 1]? with
    | none =>
      have ended : frame.chunk.size ≤ ip + 1 := Array.getElem?_eq_none_iff.mp operand
      simp [readOperand, readByte_resume, Instruction.operand?, Opcode.operandSize, operand,
        Nat.max_eq_left ended]
    | some byte =>
      simp only [readOperand, bind_apply, readByte_resume, operand, Instruction.operand?,
        Opcode.operandSize, Option.map_some]
      rfl
  case jump | jumpIfFalse | loop =>
    cases word : Chunk.readWord? frame.chunk.code (ip + 1) with
    | none => simp [readOperand, readWord_resume, Instruction.operand?, Opcode.operandSize, word]
    | some distance =>
      simp only [readOperand, bind_apply, readWord_resume, word, Instruction.operand?,
        Opcode.operandSize]
      rfl
  all_goals rfl

section

variable (innermost : machine.frames.back? = some frame)
include innermost

/--
What the machine reads is what stands in the code, and it moves on by the size of the operation. It
stops at a byte that stands for no operation, and where the code ends.
-/
theorem fetch_apply :
    fetch machine =
      match Instruction.decode frame.chunk.code frame.ip with
      | .outside => .error .codeEnd machine
      | .unknown byte => .error (.unknownOpcode byte.toNat) (machine.resume frame (frame.ip + 1))
      | .truncated _ => .error .codeEnd (machine.resume frame frame.chunk.size)
      | .found instruction =>
        .ok instruction (machine.resume frame (frame.ip + instruction.size)) := by
  have start := @readByte_resume machine frame frame.ip
  rw [Machine.resume_self innermost] at start
  rw [fetch, readOpcode, Instruction.decode]
  cases here : frame.chunk.code[frame.ip]? with
  | none => simp [start, here]
  | some byte =>
    cases known : Opcode.ofByte? byte with
    | none => simp [start, here, known]
    | some opcode =>
      have inside : frame.ip < frame.chunk.size := (Array.getElem?_eq_some_iff.mp here).1
      have reads := @readOperand_resume machine frame opcode frame.ip
      cases operand : Instruction.operand? frame.chunk.code frame.ip opcode with
      | none =>
        rw [operand, Nat.max_eq_right inside] at reads
        simp [start, here, known, reads, operand]
      | some number =>
        rw [operand] at reads
        simp [start, here, known, reads, operand]

theorem frame_apply : Exec.frame machine = .ok frame machine := by
  simp [Exec.frame, innermost]

theorem goTo_apply (ip : Nat) : goTo ip machine = .ok () (machine.resume frame ip) := by
  simp [goTo, innermost, Machine.resume]

/-- A step does what the instruction says, with the innermost call moved on behind it. -/
theorem step_eq (found : frame.chunk.Has frame.ip instruction) :
    step machine = execute instruction (machine.resume frame (frame.ip + instruction.size)) := by
  have reads : Instruction.decode frame.chunk.code frame.ip = .found instruction := found
  simp [step, fetch_apply innermost, reads]

theorem constant_apply (held : frame.chunk.constants[index]? = some entry) :
    constant index machine = .ok entry machine := by
  simp [constant, frame_apply innermost, held]

theorem name_apply (named : frame.chunk.Names index text) :
    name index machine = .ok text machine := by
  simp [name, constant_apply innermost named]

theorem place_apply (inside : frame.base + slot < machine.stack.size) :
    place slot machine = .ok (frame.base + slot) machine := by
  simp [place, frame_apply innermost, inside]

end

/-! ## Instructions -/

/-- What it makes of one operand. -/
def unary? : Instruction → Option (Value → Except Fault Value)
  | .negate => some Datum.negative
  | .logicalNot => some fun value => .ok (.bool value.isFalsey)
  | _ => none

/-- What it makes of two operands. -/
def binary? : Instruction → Option (Value → Value → Except Fault Value)
  | .add => some Datum.plus
  | .subtract => some (Datum.onNumbers fun left right => .number (left - right))
  | .multiply => some (Datum.onNumbers fun left right => .number (left * right))
  | .divide => some (Datum.onNumbers fun left right => .number (left / right))
  | .equal => some fun left right => .ok (.bool (Value.same left right))
  | .greater => some (Datum.onNumbers fun left right => .bool (right < left))
  | .less => some (Datum.onNumbers fun left right => .bool (left < right))
  | _ => none

/-- What becomes of a result. -/
def settleResult (machine : Machine) :
    Except Fault Value → EStateM.Result Fault Machine (Option Value)
  | .ok value => put value machine
  | .error fault => .error fault machine

theorem execute_unary {operation : Value → Except Fault Value} {operand : Value}
    (computes : unary? instruction = some operation) (top : machine.stack = stack.push operand) :
    execute instruction machine = settleResult { machine with stack } (operation operand) := by
  cases instruction <;> cases computes
  case negate =>
    cases operand <;> simp [execute, negate, pop_apply top, Datum.negative, settleResult, put]
  case logicalNot => simp [execute, logicalNot, pop_apply top, settleResult, put]

theorem execute_binary {operation : Value → Value → Except Fault Value} {left right : Value}
    (computes : binary? instruction = some operation)
    (top : machine.stack = (stack.push left).push right) :
    execute instruction machine = settleResult { machine with stack } (operation left right) := by
  have second : pop { machine with stack := stack.push left } = .ok left { machine with stack } :=
    pop_apply rfl
  cases instruction <;> cases computes
  case add =>
    cases left <;> cases right <;>
      simp [execute, add, pop_apply top, second, Datum.plus, settleResult, put]
  case equal => simp [execute, equal, pop_apply top, second, settleResult, put]
  all_goals
    cases left <;> cases right <;>
      simp [execute, numeric, pop_apply top, second, Datum.onNumbers, settleResult, put]

theorem execute_constant (innermost : machine.frames.back? = some frame)
    (held : frame.chunk.constants[index]? = some entry) :
    execute (.constant index) machine = put (frame.callee.load index entry) machine := by
  simp [execute, loadConstant, constant_apply innermost held, frame_apply innermost, put]

theorem execute_pop (top : machine.stack = stack.push value) :
    execute .pop machine = .ok none { machine with stack } := by
  simp [execute, pop_apply top]

theorem execute_print (top : machine.stack = stack.push value) :
    execute .print machine =
      match machine.sink.write (Value.display value ++ "\n") with
      | (sink, none) => .ok none { machine with stack, sink }
      | (sink, some reason) => .error (.outputFailed reason) { machine with stack, sink } := by
  rcases written : machine.sink.write (Value.display value ++ "\n") with ⟨sink, _ | reason⟩ <;>
    simp [execute, print, pop_apply top, write, written]

section

variable (innermost : machine.frames.back? = some frame)
include innermost

theorem execute_defineGlobal (named : frame.chunk.Names index text)
    (top : machine.stack = stack.push value) :
    execute (.defineGlobal index) machine =
      .ok none { machine with stack, globals := machine.globals.insert text value } := by
  simp [execute, defineGlobal, name_apply innermost named, pop_apply top]

theorem execute_getGlobal (named : frame.chunk.Names index text) :
    execute (.getGlobal index) machine =
      match machine.globals[text]? with
      | some value => put value machine
      | none => .error (.undefinedVariable text) machine := by
  simp only [execute, getGlobal, bind_apply, name_apply innermost named, get_apply]
  cases machine.globals[text]? <;> simp [put]

theorem execute_setGlobal (named : frame.chunk.Names index text)
    (top : machine.stack = stack.push value) :
    execute (.setGlobal index) machine =
      if machine.globals.contains text then
        .ok none { machine with globals := machine.globals.insert text value }
      else .error (.undefinedVariable text) machine := by
  by_cases known : text ∈ machine.globals <;>
    simp [execute, setGlobal, name_apply innermost named, peek_apply top, known]

theorem execute_getLocal (held : machine.stack[frame.base + slot]? = some value) :
    execute (.getLocal slot) machine = put value machine := by
  have inside := (Array.getElem?_eq_some_iff.mp held).1
  simp [execute, getLocal, place_apply innermost inside, held, put]

theorem execute_setLocal (inside : frame.base + slot < machine.stack.size)
    (top : machine.stack = stack.push value) :
    execute (.setLocal slot) machine =
      .ok none { machine with stack := machine.stack.setIfInBounds (frame.base + slot) value } := by
  simp [execute, setLocal, place_apply innermost inside, peek_apply top]

theorem execute_jump (distance : Nat) :
    execute (.jump distance) machine = .ok none (machine.resume frame (frame.ip + distance)) := by
  simp [execute, jump, frame_apply innermost, goTo_apply innermost]

theorem execute_jumpIfFalse (top : machine.stack = stack.push value) (distance : Nat) :
    execute (.jumpIfFalse distance) machine =
      .ok none (if value.isFalsey then machine.resume frame (frame.ip + distance)
        else machine) := by
  cases falsey : value.isFalsey <;>
    simp [execute, jumpIfFalse, peek_apply top, falsey, jump, frame_apply innermost,
      goTo_apply innermost]

theorem execute_loop {distance : Nat} (inside : distance ≤ frame.ip) :
    execute (.loop distance) machine = .ok none (machine.resume frame (frame.ip - distance)) := by
  simp [execute, loop, frame_apply innermost, Nat.not_lt.mpr inside, goTo_apply innermost]

end

theorem execute_call {count : Nat} {called : Value}
    (held : machine.stack[machine.stack.size - (count + 1)]? = some called)
    (enough : count + 1 ≤ machine.stack.size) :
    execute (.call count) machine =
      match called with
      | .function callee =>
        if callee.function.arity ≠ count then
          .error (.wrongArgumentCount callee.function.arity count) machine
        else if machine.config.maxFrames ≤ machine.frames.size then .error .stackOverflow machine
        else .ok none { machine with
          frames := machine.frames.push ⟨callee, 0, machine.stack.size - (count + 1)⟩ }
      | _ => .error .notCallable machine := by
  have notBelow : ¬ machine.stack.size < count + 1 := Nat.not_lt.mpr enough
  simp only [execute, call, bind_apply, get_apply, notBelow, if_false, pure_apply, held]
  cases called with
  | function callee =>
    by_cases arity : callee.function.arity = count
    · by_cases full : machine.config.maxFrames ≤ machine.frames.size
      · simp [arity, full]
      · simp [arity, full]
    · simp [arity]
  | _ => simp

theorem execute_ret (innermost : machine.frames.back? = some frame)
    (top : machine.stack = stack.push value) :
    execute .ret machine =
      if machine.frames.pop.isEmpty then
        .ok (some value) { machine with
          frames := machine.frames.pop, stack := stack.shrink frame.base }
      else put value { machine with
        frames := machine.frames.pop, stack := stack.shrink frame.base } := by
  have still : ({ machine with stack } : Machine).frames.back? = some frame := innermost
  by_cases last : machine.frames.pop = #[] <;>
    simp [execute, ret, pop_apply top, leave, frame_apply still, last, put]

end Exec

namespace Machine

/-- A machine in front of a script. -/
def loaded (machine : Machine) (script : Function) : Machine :=
  { machine with
    stack := #[.function (.script machine.runs script)]
    frames := #[⟨.script machine.runs script, 0, 0⟩]
    runs := machine.runs + 1 }

theorem load_eq (machine : Machine) (script : Function) :
    machine.load script =
      if 0 < machine.config.stackSize then .running (machine.loaded script)
      else .finished (.error ⟨.stackOverflow, 0⟩)
        { machine.reset with runs := machine.runs + 1 } := by
  by_cases room : 0 < machine.config.stackSize
  · simp [load, Exec.push, reset, room, loaded]
  · simp [load, Exec.push, reset, room]

/-- The run lemma: what every step keeps, a run keeps. -/
theorem advance_holds {machine : Machine} (holds : Progress → Prop)
    (each : ∀ machine, holds (.running machine) → holds machine.tick)
    (start : holds (.running machine)) (steps : Nat) : holds (machine.advance steps) := by
  induction steps generalizing machine with
  | zero => exact start
  | succ steps ih =>
    have once := each machine start
    rw [advance]
    split
    · next ticked =>
      rw [ticked] at once
      exact ih once
    · next ticked =>
      rw [ticked] at once
      exact once

theorem interpret_of_loads {machine : Machine} (room : 0 < machine.config.stackSize)
    (script : Function) (steps : Nat) :
    machine.interpret script steps = (machine.loaded script).advance steps := by
  rw [interpret, load_eq, if_pos room]

end Machine

end StackScript
