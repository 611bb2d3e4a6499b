import Std.Data.TreeMap
import StackScript.Fault
import StackScript.Value
import StackScript.Proofs.Tree

/-!
# The meaning of programs

A program is evaluated by walking its tree, without code, stack or slots. Variables are looked up by
name, in the scopes of the running call and then among the global variables. The depth of calls and
the number of rounds of each loop are bounded by fuel.

Two functions are the same only if they were declared at the same place of one program.
-/

namespace StackScript

namespace Datum

variable {F : Type}

def plus : Datum F → Datum F → Except Fault (Datum F)
  | number left, number right => .ok (.number (left + right))
  | string left, string right => .ok (.string (left ++ right))
  | _, _ => .error .operandsNotAddable

def onNumbers (operation : Float → Float → Datum F) : Datum F → Datum F → Except Fault (Datum F)
  | number left, number right => .ok (operation left right)
  | _, _ => .error .operandsNotNumbers

def negative : Datum F → Except Fault (Datum F)
  | number value => .ok (.number (-value))
  | _ => .error .operandNotNumber

/-- Equality within one kind. -/
def alike (sameFunction : F → F → Bool) : Datum F → Datum F → Bool
  | nil, nil => true
  | bool left, bool right => left == right
  | number left, number right => left == right
  | string left, string right => left == right
  | function left, function right => sameFunction left right
  | _, _ => false

end Datum

def UnaryOperator.apply {F : Type} : UnaryOperator → Datum F → Except Fault (Datum F)
  | negate => Datum.negative
  | not => fun operand => .ok (.bool operand.isFalsey)

def BinaryOperator.apply {F : Type} (sameFunction : F → F → Bool) :
    BinaryOperator → Datum F → Datum F → Except Fault (Datum F)
  | add => Datum.plus
  | subtract => Datum.onNumbers fun left right => .number (left - right)
  | multiply => Datum.onNumbers fun left right => .number (left * right)
  | divide => Datum.onNumbers fun left right => .number (left / right)
  | equal => fun left right => .ok (.bool (Datum.alike sameFunction left right))
  | notEqual => fun left right => .ok (.bool (!Datum.alike sameFunction left right))
  | greater => Datum.onNumbers fun left right => .bool (right < left)
  | greaterEqual => Datum.onNumbers fun left right => .bool (!(left < right : Bool))
  | less => Datum.onNumbers fun left right => .bool (left < right)
  | lessEqual => Datum.onNumbers fun left right => .bool (!(right < left : Bool))

def KeywordLiteral.datum {F : Type} : KeywordLiteral → Datum F
  | nil => .nil
  | true => .bool Bool.true
  | false => .bool Bool.false

/-- A function as a tree, with its identity. -/
structure Routine where
  name : String
  parameters : List String
  body : Statement
  origin : Origin

namespace Reference

/-- A value of the evaluation. -/
abbrev Meaning := Datum Routine

def display (value : Meaning) : String :=
  Datum.display (fun routine =>
    if routine.name == Function.scriptName then Function.scriptName else s!"<fn {routine.name}>")
    value

abbrev Bindings := List (String × Meaning)

/-- Assigns in one scope. -/
def Bindings.assign? (name : String) (value : Meaning) : Bindings → Option Bindings
  | [] => none
  | entry :: outer =>
    if entry.1 = name then some ((name, value) :: outer)
    else (assign? name value outer).map (entry :: ·)

def assignIn? (name : String) (value : Meaning) : List Bindings → Option (List Bindings)
  | [] => none
  | scope :: outer =>
    match scope.assign? name value with
    | some changed => some (changed :: outer)
    | none => (assignIn? name value outer).map (scope :: ·)

/-- The state of an evaluation. -/
structure State where
  scopes : List Bindings
  globals : Std.TreeMap String Meaning
  output : String

/-- Why an evaluation stops. -/
inductive Stop where
  | outOfFuel
  | fault (fault : Fault)

/-- An action of the evaluation. -/
abbrev Eval := EStateM Stop State

/-- How a statement ends. -/
inductive Flow where
  | normal
  | broke
  | continued
  | returned (value : Meaning)

/-- The result of an operation. -/
def lift : Except Fault Meaning → Eval Meaning
  | .ok value => return value
  | .error fault => throw (.fault fault)

/-- The value of a variable: the one of the innermost scope that has it, or the global one. -/
def find (name : String) : Eval Meaning := do
  let state ← get
  match state.scopes.flatten.lookup name with
  | some value => return value
  | none =>
    match state.globals[name]? with
    | some value => return value
    | none => throw (.fault (.undefinedVariable name))

/-- Assigns to a variable. -/
def assign (name : String) (value : Meaning) : Eval Unit := do
  let state ← get
  match assignIn? name value state.scopes with
  | some scopes => set { state with scopes }
  | none =>
    if state.globals.contains name then
      set { state with globals := state.globals.insert name value }
    else throw (.fault (.undefinedVariable name))

/-- Adds a variable to the innermost scope; outside of all scopes of a program it is global. -/
def declare (name : String) (value : Meaning) : Eval Unit :=
  modify fun state =>
    match state.scopes with
    | scope :: around :: outer =>
      { state with scopes := ((name, value) :: scope) :: around :: outer }
    | _ => { state with globals := state.globals.insert name value }

/-- Does something in a scope of its own. -/
def inScope (action : Eval Flow) : Eval Flow := do
  modify fun state => { state with scopes := [] :: state.scopes }
  let flow ← action
  modify fun state => { state with scopes := state.scopes.tail }
  return flow

/-- Rounds of a loop: `advance` is done behind every round that goes on. -/
def iterate (test : Eval Bool) (round : Eval Flow) (advance : Eval Unit) : Nat → Eval Flow
  | 0 => throw .outOfFuel
  | rounds + 1 => do
    if ← test then
      match ← round with
      | .broke => return .normal
      | .returned value => return .returned value
      | .normal | .continued =>
        advance
        iterate test round advance rounds
    else return .normal

end Reference

open Reference

mutual

/-- The value of an expression; `invoke` is what a call does. -/
def Expression.eval (invoke : Meaning → List Meaning → Eval Meaning) : Expression → Eval Meaning
  | .number value => return .number value
  | .string text => return .string text
  | .literal value => return value.datum
  | .reference name => find name
  | .assign name value => do
    let result ← value.eval invoke
    Reference.assign name result
    return result
  | .unary operator operand => do lift (operator.apply (← operand.eval invoke))
  | .binary operator left right => do
    let first ← left.eval invoke
    let second ← right.eval invoke
    lift (operator.apply (fun one other => one.origin == other.origin) first second)
  | .and left right => do
    let first ← left.eval invoke
    if first.isFalsey then return first else right.eval invoke
  | .or left right => do
    let first ← left.eval invoke
    if first.isFalsey then right.eval invoke else return first
  | .call callee arguments => do
    let called ← callee.eval invoke
    invoke called (← Expression.evalAll invoke arguments)

def Expression.evalAll (invoke : Meaning → List Meaning → Eval Meaning) :
    List Expression → Eval (List Meaning)
  | [] => return []
  | first :: rest => do
    let value ← first.eval invoke
    return value :: (← Expression.evalAll invoke rest)

end

namespace Statement

variable (invoke : Meaning → List Meaning → Eval Meaning)

def evalOr (otherwise : Meaning) : Option Expression → Eval Meaning
  | some value => value.eval invoke
  | none => return otherwise

/--
Does what a statement says, in the function of identity `home`, with `place` functions declared
before it. No loop does more than `rounds` rounds.
-/
def exec (rounds : Nat) (home : Origin) : Statement → Nat → Eval Flow
  | .empty, _ => return .normal
  | .sequence first rest, place => do
    match ← first.exec rounds home place with
    | .normal => rest.exec rounds home (place + first.functionCount)
    | flow => return flow
  | .expression value, _ => do
    let _ ← value.eval invoke
    return .normal
  | .print value, _ => do
    let shown ← value.eval invoke
    modify fun state => { state with output := state.output ++ (display shown ++ "\n") }
    return .normal
  | .varDeclaration name initial, _ => do
    declare name (← evalOr invoke .nil initial)
    return .normal
  | .funDeclaration name parameters body, place => do
    declare name (.function ⟨name, parameters, body, ⟨home.run, place :: home.path⟩⟩)
    return .normal
  | .block body, place => inScope (body.exec rounds home place)
  | .conditional condition met unmet, place => do
    if (← condition.eval invoke).isFalsey then
      unmet.exec rounds home (place + met.functionCount)
    else met.exec rounds home place
  | .whileLoop condition body, place =>
    iterate (return !(← condition.eval invoke).isFalsey) (body.exec rounds home place) (pure ())
      rounds
  | .forLoop initial condition increment body, place =>
    inScope do
      let _ ← initial.exec rounds home place
      iterate (return !(← evalOr invoke (.bool true) condition).isFalsey)
        (body.exec rounds home (place + initial.functionCount))
        (do let _ ← evalOr invoke .nil increment) rounds
  | .breakLoop, _ => return .broke
  | .continueLoop, _ => return .continued
  | .returnValue value, _ => return .returned (← evalOr invoke .nil value)

end Statement

namespace Reference

/-- Calls a value: the arguments become the parameters of the function that it has to be. -/
def invoke : Nat → Meaning → List Meaning → Eval Meaning
  | 0, _, _ => throw .outOfFuel
  | fuel + 1, .function routine, arguments => do
    if routine.parameters.length ≠ arguments.length then
      throw (.fault (.wrongArgumentCount routine.parameters.length arguments.length))
    let caller := (← get).scopes
    modify fun state =>
      { state with
        scopes := [(routine.parameters.zip arguments).reverse,
          [(routine.name, .function routine)]] }
    let flow ← routine.body.exec (invoke fuel) fuel routine.origin 0
    modify fun state => { state with scopes := caller }
    match flow with
    | .returned value => return value
    | _ => return .nil
  | _ + 1, _, _ => throw (.fault .notCallable)

/-- A whole program as a function that no name denotes. -/
def script (program : Statement) (run : Nat) : Routine :=
  ⟨"", [], program, ⟨run, []⟩⟩

/-- The state in front of a program. -/
def start (program : Statement) (run : Nat) (globals : Std.TreeMap String Meaning) : State :=
  ⟨[[("", .function (script program run))]], globals, ""⟩

/-- Evaluates a program as the run of that number, with the global variables of earlier ones. -/
def run (fuel : Nat) (program : Statement) (number : Nat)
    (globals : Std.TreeMap String Meaning) : EStateM.Result Stop State Flow :=
  program.exec (invoke fuel) fuel ⟨number, []⟩ 0 (start program number globals)

end Reference

end StackScript
