import StackScript.Compiler.Program
import StackScript.Listing
import StackScript.Machine.Run

/-!
# The journal

What the compiler and the machine do, as messages: functions that are finished, scopes that are
closed, calls, returns and failures and, in more detail, every step.
-/

namespace StackScript

/-- How detailed a message is. -/
inductive Level where
  | debug
  | trace
deriving DecidableEq, Repr

/-- A message with its level. -/
structure Entry where
  level : Level
  message : String

def ScopeKind.display : ScopeKind → String
  | block => "Block"
  | loop => "Loop"
  | function => "Function"

/-- The message for an event. -/
def Compiler.Event.message : Compiler.Event → String
  | finished function => Listing.body function
  | closed scope stop =>
    s!"closed {scope.kind.display} scope at depth {scope.depth} " ++
      s!"spanning bytes {scope.start}..{stop}"

/-- The message for an event of the compiler, as an entry. -/
def Compiler.Event.entry (event : Compiler.Event) : Entry :=
  ⟨.debug, event.message⟩

namespace Machine

/-- The stack on one line, from the bottom to the top. -/
def stackLine (machine : Machine) : String :=
  machine.stack.foldl (fun line value => s!"{line}[ {Value.display value} ]") "          "

/-- The entries in front of a step: the stack and the instruction. -/
def entriesBefore (machine : Machine) : List Entry :=
  match machine.frames.back? with
  | none => []
  | some frame =>
    [⟨.trace, machine.stackLine⟩, ⟨.trace, (Listing.instruction frame.chunk frame.ip).1⟩]

/-- The message for a step that called a function or returned from one. -/
def callMessage? (before after : Machine) : Option String := do
  let caller ← before.frames.back?
  match ← Opcode.ofByte? (← caller.chunk.code[caller.ip]?) with
  | .call =>
    let called ← after.frames.back?
    some s!"call {called.callee.function.display} at depth {after.frames.size}"
  | .ret =>
    some s!"return from {caller.callee.function.display} to depth {after.frames.size}"
  | _ => none

def entriesAfter (before : Machine) : Progress → List Entry
  | .running after => ((callMessage? before after).map (Entry.mk .debug)).toList
  | .finished (.error failure) _ =>
    [⟨.debug, s!"runtime failure at line {failure.line}: {failure.fault.status.display}"⟩]
  | .finished (.ok _) _ => []

/-- At most that many steps of a run, with the entries of that level added to `journal`. -/
def advanceLogged (level : Level) : Nat → Machine → Array Entry → Progress × Array Entry
  | 0, machine, journal => (.running machine, journal)
  | steps + 1, machine, journal =>
    let progress := machine.tick
    let before := if level = .trace then machine.entriesBefore else []
    let journal := journal ++ before ++ machine.entriesAfter progress
    match progress with
    | .running next => advanceLogged level steps next journal
    | .finished outcome last => (.finished outcome last, journal)

end Machine

end StackScript
