import StackScript.Shell.Arguments

/-!
# The command

Reading arguments, files and lines, and writing what the program writes. Nothing is decided here.
-/

namespace StackScript.Command

/-- The number of steps between two looks at the output. -/
def portion : Nat := 100000

/-- Brings a run to its end and writes its output from byte `shown` on. -/
partial def complete (shown : Nat) (progress : Progress) :
    IO (Except Failure Value × Machine) := do
  let written := progress.machine.sink.written
  let output ← IO.getStdout
  output.write (written.extract shown written.size)
  output.flush
  match progress with
  | .finished outcome machine => return (outcome, machine)
  | .running machine => complete written.size (machine.advance portion)

/-- The surroundings of the command: the standard streams. -/
def host : Host IO where
  out text := do
    IO.print text
    (← IO.getStdout).flush
  err text := IO.eprint text
  complete progress := complete progress.machine.sink.written.size progress

def readError (error : IO.Error) : ReadError :=
  match error with
  | .noFileOrDirectory .. => .system "No such file or directory (os error 2)"
  | .permissionDenied .. => .system "Permission denied (os error 13)"
  | .inappropriateType .. => .system "Is a directory (os error 21)"
  | other => .system (toString other)

def readText (path : String) : IO (Except ReadError String) := do
  try
    return Shell.decodeFile (← IO.FS.readBinFile path)
  catch error =>
    return .error (readError error)

/-- Answers the lines of the standard input until the dialogue ends. -/
partial def answerLines (options : Options) (machine : Machine) : IO Unit := do
  let input ← IO.getStdin
  if ← input.isTty then
    host.out "> "
  let line ← input.getLine
  if line.isEmpty then
    return ()
  match ← Shell.answer host options machine line with
  | some after => answerLines options after
  | none => return ()

/-- Does what the arguments say. -/
def run (arguments : Shell.Arguments) : IO UInt32 := do
  match arguments.file with
  | some path =>
    let code ← Shell.runFile host arguments.options path (← readText path)
    return code.toUInt32
  | none =>
    host.out Shell.greeting
    answerLines arguments.options (.fresh arguments.options.config .unlimited)
    return 0

end StackScript.Command

/-- Runs a script file, or a dialogue if there is none. -/
def main (words : List String) : IO UInt32 := do
  match StackScript.Shell.Arguments.ofWords .none words with
  | .ok arguments => StackScript.Command.run arguments
  | .error reason =>
    IO.eprintln s!"error: {reason}"
    return 2
