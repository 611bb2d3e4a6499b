import StackScript.Datum

/-!
# Values of a running program

A value is a datum whose functions are loaded. Two functions are the same only if they are one
object, so a loaded function carries the run that loaded its program and the places in pools that
lead to it from the script.
-/

namespace StackScript

/-- The identity of a loaded function. -/
structure Origin where
  /-- The run that loaded the program. -/
  run : Nat
  /-- The places in the pools that lead from the script to the function, innermost first. -/
  path : List Nat
deriving DecidableEq, Repr

/-- A function that was loaded by some run. -/
structure Callable where
  function : Function
  origin : Origin

/-- A value of a running program. -/
abbrev Value := Datum Callable

/-- The script of a program, as loaded by a run. -/
def Callable.script (run : Nat) (script : Function) : Callable :=
  ⟨script, ⟨run, []⟩⟩

/-- The constant at place `index` in the pool of `holder`, as a value. -/
def Callable.load (holder : Callable) (index : Nat) (constant : Constant) : Value :=
  constant.mapFunction fun function =>
    ⟨function, ⟨holder.origin.run, index :: holder.origin.path⟩⟩

namespace Value

/-- The value as it is printed. -/
def display (value : Value) : String :=
  Datum.display (fun callable => callable.function.display) value

/-- Equality as programs see it: within one kind only, and by identity for functions. -/
def same : Value → Value → Bool
  | .nil, .nil => true
  | .bool left, .bool right => left == right
  | .number left, .number right => left == right
  | .string left, .string right => left == right
  | .function left, .function right => left.origin == right.origin
  | _, _ => false

end Value

end StackScript
