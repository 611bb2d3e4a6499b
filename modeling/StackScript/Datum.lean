import StackScript.Chunk
import StackScript.Number.Fixed

/-!
# Data of the language

Nil, truth values, numbers, texts and functions. What stands for a function differs: in a pool of
constants it is the function itself, in a running machine one that was loaded and has an identity.
`Datum` leaves that open. A program is the function of its outermost code, the script.
-/

namespace StackScript

/-- A datum, with functions of type `F`. -/
inductive Datum (F : Type) where
  | nil
  | bool (value : Bool)
  | number (value : Float)
  | string (text : String)
  | function (function : F)
deriving Inhabited

namespace Datum

variable {F G : Type}

def typeName : Datum F → String
  | nil => "nil"
  | bool _ => "bool"
  | number _ => "number"
  | string _ => "string"
  | function _ => "function"

/-- Only nil and false count as false. -/
def isFalsey : Datum F → Bool
  | nil => true
  | bool value => !value
  | _ => false

/-- Replaces what stands for functions. -/
def mapFunction (f : F → G) : Datum F → Datum G
  | nil => .nil
  | bool value => .bool value
  | number value => .number value
  | string text => .string text
  | function value => .function (f value)

/-- The datum as it is printed. -/
def display (showFunction : F → String) : Datum F → String
  | nil => "nil"
  | bool value => if value then "true" else "false"
  | number value => Number.display value
  | string text => text
  | function value => showFunction value

def number? : Datum F → Option Float
  | number value => some value
  | _ => none

def string? : Datum F → Option String
  | string text => some text
  | _ => none

def function? : Datum F → Option F
  | function value => some value
  | _ => none

end Datum

/-- A function: its name, the number of its parameters and its code. -/
structure Function where
  name : String
  arity : Nat
  chunk : Chunk (Datum Function)
deriving Inhabited

/-- A constant in the pool of a chunk. -/
abbrev Constant := Datum Function

namespace Function

/-- The name that marks the outermost code of a program. -/
def scriptName : String := "<script>"

/-- The outermost code of a program as a function. -/
def script (chunk : Chunk Constant) : Function :=
  ⟨scriptName, 0, chunk⟩

/-- Whether a function is a script. -/
def isScript (function : Function) : Bool :=
  function.name == scriptName

/-- The function as it is printed. -/
def display (function : Function) : String :=
  if function.isScript then scriptName else s!"<fn {function.name}>"

end Function

/-- The constant as it is listed. -/
def Constant.display (constant : Constant) : String :=
  Datum.display Function.display constant

end StackScript
