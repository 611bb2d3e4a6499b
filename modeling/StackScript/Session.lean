import StackScript.Compiler.Program
import StackScript.Machine.Run
import StackScript.Text.Cut

/-!
# Sessions

A session is a sequence of programs on one machine, which share global variables and output. Each
of them ends in one of three ways: the compiler refuses it, which leaves the machine alone, or it
fails, or it returns.
-/

namespace StackScript

/-- How a program of a session ended. -/
inductive Outcome where
  | rejected (error : CompileError)
  | failed (failure : Failure)
  | returned (value : Value)

namespace Outcome

/-- How a run that was not rejected ended. -/
def ofRun : Except Failure Value → Outcome
  | .ok value => returned value
  | .error failure => failed failure

/-- What is reported of a program that did not return. -/
def report? : Outcome → Option String
  | rejected error => some error.message
  | failed failure => some failure.display
  | returned _ => none

end Outcome

namespace Machine

/-- Compiles a program text and loads it. -/
def loadText (machine : Machine) (text : String) : Except CompileError Progress :=
  (compile text).map machine.load

def outputFrom (machine : Machine) (start : Nat) : String :=
  Text.ofCutBytes (machine.sink.written.extract start machine.sink.written.size)

end Machine

end StackScript
