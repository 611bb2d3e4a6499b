import StackScript.Listing
import StackScript.Session
import StackScript.Text.Blank

/-!
# The command line

A command runs a script file or, without one, a dialogue that takes one line at a time. What it does
with its surroundings goes through a `Host`; everything else is decided here.
-/

namespace StackScript

/-- What a command is told. -/
structure Options where
  /-- Whether a program is listed before it runs. -/
  disassemble : Bool
  config : Config

/-- Why a script file could not be read. -/
inductive ReadError where
  /-- The reason as the system words it. -/
  | system (reason : String)
  | notText

def ReadError.message : ReadError → String
  | system reason => reason
  | notText => "stream did not contain valid UTF-8"

/-- The surroundings of a command. -/
structure Host (m : Type → Type) where
  out : String → m Unit
  err : String → m Unit
  /-- Brings a run to its end. -/
  complete : Progress → m (Except Failure Value × Machine)

namespace Shell

variable {m : Type → Type} [Monad m]

/-- The code with which a command ends after a program. -/
def exitCode : Outcome → UInt8
  | .rejected _ => 65
  | .failed _ => 70
  | .returned _ => 0

/-- The code with which a command ends if it cannot read its script. -/
def unreadableCode : UInt8 := 74

/-- Runs one program text on a machine. -/
def runText (host : Host m) (options : Options) (machine : Machine) (text : String) :
    m (Outcome × Machine) := do
  match compile text with
  | .error error => return (.rejected error, machine)
  | .ok script =>
    if options.disassemble then
      host.out (Listing.function script ++ "\n")
    let (outcome, after) ← host.complete (machine.load script)
    return (.ofRun outcome, after)

/-- Tells how a run has ended. -/
def report (host : Host m) (outcome : Outcome) : m Unit :=
  match outcome.report? with
  | some message => host.err (message ++ "\n")
  | none => pure ()

/-- The text of a file. -/
def decodeFile (bytes : ByteArray) : Except ReadError String :=
  match String.fromUTF8? bytes with
  | some text => .ok text
  | none => .error .notText

/-- Runs the script at `path` and gives the code with which the command ends. -/
def runFile (host : Host m) (options : Options) (path : String)
    (content : Except ReadError String) : m UInt8 := do
  match content with
  | .error reason =>
    host.err s!"Failed to read file '{path}': {reason.message}\n"
    return unreadableCode
  | .ok text =>
    let machine := Machine.fresh options.config .unlimited
    let (outcome, _) ← runText host options machine text
    report host outcome
    return exitCode outcome

/-- What a line of a dialogue asks for. -/
inductive Request where
  | quit
  | nothing
  | examples
  | run (text : String)

/-- Reads a line of a dialogue, without the blanks around it. -/
def Request.ofLine (line : String) : Request :=
  match Text.trim line with
  | "quit" | "exit" => quit
  | "" => nothing
  | ":examples" => examples
  | text => run text

def greeting : String :=
  "qian REPL\nEnter statements, 'quit', or ':examples'\n"

/-- Programs to try, each with what it shows. -/
def examplePrograms : List (String × String) :=
  [("Arithmetic", "print 1 + 2 * 10 - (2 + 3) * 6;"),
    ("Globals",
      "var greeting = \"hello\"; greeting = greeting + \" world\"; print greeting;"),
    ("Block scope", "\x7b var a = 1; \x7b var a = 2; print a; \x7d print a; \x7d"),
    ("Branches",
      "var n = 7; if (n < 5) print \"small\"; elif (n < 10) print \"medium\"; " ++
        "else print \"large\";"),
    ("Counting loop", "for (var i = 0; i < 3; i = i + 1) print i;"),
    ("Break and continue",
      "for (var i = 0; i < 10; i = i + 1) \x7b if (i == 2) continue; if (i == 5) break; " ++
        "print i; \x7d"),
    ("Recursion",
      "fun fib(n) \x7b if (n < 2) return n; return fib(n - 1) + fib(n - 2); \x7d " ++
        "print fib(15);")]

def exampleText : String :=
  "\n--- qian Examples ---\n\n" ++
    String.join (examplePrograms.map fun (title, code) => s!"// {title}\n{code}\n\n") ++
    "---------------------\n\n"

/-- Answers a line of a dialogue; gives the machine for the next line unless the dialogue ends. -/
def answer (host : Host m) (options : Options) (machine : Machine) (line : String) :
    m (Option Machine) := do
  match Request.ofLine line with
  | .quit => return none
  | .nothing => return some machine
  | .examples =>
    host.out exampleText
    return some machine
  | .run text =>
    let (outcome, after) ← runText host options machine text
    report host outcome
    return some after

/-- Answers line after line until the dialogue ends or no line is left. -/
def answerAll (host : Host m) (options : Options) : Machine → List String → m Unit
  | _, [] => pure ()
  | machine, line :: lines => do
    match ← answer host options machine line with
    | some after => answerAll host options after lines
    | none => pure ()

/-- The lines of an input; a last line without an end counts if there is something on it. -/
def inputLines (text : String) : List String :=
  let pieces := text.splitOn "\n"
  if pieces.getLast? == some "" then pieces.dropLast else pieces

/-- A whole dialogue with the lines given beforehand. -/
def dialogue (host : Host m) (options : Options) (lines : List String) : m Unit := do
  host.out greeting
  answerAll host options (Machine.fresh options.config .unlimited) lines

end Shell

end StackScript
