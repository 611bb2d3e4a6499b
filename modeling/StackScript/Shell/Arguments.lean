import StackScript.Number.Literal
import StackScript.Shell

/-!
# Arguments of the command

The words behind the name of the command: at most one file, and flags in any order. A flag with a
number takes it from the next word or from behind an equals sign.
-/

namespace StackScript.Shell

/-- What the words behind the command ask for. -/
structure Arguments where
  file : Option String
  options : Options

namespace Arguments

def none : Arguments :=
  ⟨.none, ⟨false, .default⟩⟩

inductive NumberFlag where
  | stackSize
  | maxFrames

/-- The flag that a word names. -/
def NumberFlag.ofWord? (word : String) : Option NumberFlag :=
  match word with
  | "--stack-size" => some stackSize
  | "--max-frames" => some maxFrames
  | _ => .none

def set (arguments : Arguments) (flag : NumberFlag) (number : Nat) : Arguments :=
  let config := arguments.options.config
  let config :=
    match flag with
    | .stackSize => { config with stackSize := number }
    | .maxFrames => { config with maxFrames := number }
  { arguments with options := { arguments.options with config } }

def setWord (arguments : Arguments) (flag : NumberFlag) (word : String) :
    Except String Arguments :=
  if Number.isDigits word.toList then .ok (arguments.set flag (Number.ofDigits word.toList))
  else .error s!"invalid number '{word}'"

/-- The flag and the number of a word that has both. -/
def assignment? (word : String) : Option (NumberFlag × String) := do
  let name := word.toList.takeWhile (· != '=')
  let value := (word.toList.dropWhile (· != '=')).tail
  let flag ← NumberFlag.ofWord? (String.ofList name)
  if value.isEmpty then .none else some (flag, String.ofList value)

/-- Takes a word that is no flag as the file. -/
def setFile (arguments : Arguments) (word : String) : Except String Arguments :=
  if word.startsWith "-" || arguments.file.isSome then .error s!"unexpected argument '{word}'"
  else .ok { arguments with file := some word }

/-- Takes a word that stands by itself. -/
def setSingle (arguments : Arguments) (word : String) : Except String Arguments :=
  if word = "--disassemble" then
    .ok { arguments with options := { arguments.options with disassemble := true } }
  else
    match assignment? word with
    | some (flag, value) => arguments.setWord flag value
    | .none => arguments.setFile word

/-- Reads the words behind the command. -/
def ofWords (arguments : Arguments) : List String → Except String Arguments
  | [] => .ok arguments
  | [word] => arguments.setSingle word
  | word :: next :: words =>
    match NumberFlag.ofWord? word with
    | some flag => do ofWords (← arguments.setWord flag next) words
    | .none => do ofWords (← arguments.setSingle word) (next :: words)

end Arguments

end StackScript.Shell
