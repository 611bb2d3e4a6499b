import StackScript.Chunk.Lines
import StackScript.Machine.Step

/-!
# Runs

A run loads a script and does steps until the script returns or a step fails. A program need not
end, so `advance` does a given number of steps at most and tells whether the run has ended.
-/

namespace StackScript

/-- How far a run has come. -/
inductive Progress where
  | running (machine : Machine)
  | finished (outcome : Except Failure Value) (machine : Machine)

/-- The machine that a run has come to. -/
def Progress.machine : Progress → Machine
  | running machine => machine
  | finished _ machine => machine

/-- The source line of the next instruction of a call. -/
def Frame.line (frame : Frame) : Nat :=
  frame.chunk.lineAt frame.ip

namespace Machine

/--
What a step comes to. A failure is reported at the line of the call that was innermost before the
step.
-/
@[noinline] def settle (before : Option Frame) :
    EStateM.Result Fault Machine (Option Value) → Progress
  | .ok none machine => .running machine
  | .ok (some result) machine => .finished (.ok result) machine
  | .error fault machine =>
    .finished (.error ⟨fault, (before.map Frame.line).getD 0⟩) machine.reset

/-- One step of a run. -/
def tick (machine : Machine) : Progress :=
  settle machine.frames.back? (Exec.step machine)

/-- At most that many steps of a run. -/
def advance : Nat → Machine → Progress
  | 0, machine => .running machine
  | steps + 1, machine =>
    match machine.tick with
    | .running next => advance steps next
    | .finished outcome last => .finished outcome last

/--
Loads a script: it becomes the only value on the stack and the only call. There is no line to
report if the stack has no room for it.
-/
def load (machine : Machine) (script : Function) : Progress :=
  let callee := Callable.script machine.runs script
  let ready := { machine.reset with runs := machine.runs + 1 }
  match Exec.push (.function callee) ready with
  | .ok () loaded => .running { loaded with frames := #[⟨callee, 0, 0⟩] }
  | .error fault unchanged => .finished (.error ⟨fault, 0⟩) unchanged

/-- Loads a script and does at most that many steps. -/
def interpret (machine : Machine) (script : Function) (steps : Nat) : Progress :=
  match machine.load script with
  | .running loaded => loaded.advance steps
  | .finished outcome last => .finished outcome last

end Machine

end StackScript
