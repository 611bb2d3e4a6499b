import StackScript.Compiler.Code

/-!
# Scopes and variables

Outside of all scopes a variable is global and is found by its name when the program runs. Inside of
a scope it is a local, opened before its initializer and closed with its scope.
-/

namespace StackScript

/-- What a declaration binds a name to. -/
inductive Binding where
  /-- The innermost local. -/
  | slot
  /-- A global variable, by the place of its name in the pool. -/
  | global (index : UInt8)

/-- What a name refers to. -/
inductive Reference where
  | slot (number : UInt8)
  | global (index : UInt8)

namespace Reference

/-- Writes the use of a variable. -/
def emitGet : Reference → Compile Unit
  | slot number => Compile.emitWith .getLocal number
  | global index => Compile.emitWith .getGlobal index

/-- Writes an assignment. -/
def emitSet : Reference → Compile Unit
  | slot number => Compile.emitWith .setLocal number
  | global index => Compile.emitWith .setGlobal index

end Reference

namespace Compile

/-- The greatest number of locals that can be open at a time, slot zero included. -/
def maxLocals : Nat := 256

def openScope (kind : ScopeKind) : Compile Unit :=
  modify (·.onDraft (·.openScope kind))

/--
Closes the innermost scope. The jumps that leave it lead to where its locals are discarded, and
then its locals are discarded.
-/
def closeScope : Compile Unit := do
  match (← get).draft.scopes with
  | [] => pure ()
  | scope :: outer =>
    modify (·.onDraft fun draft => { draft with scopes := outer })
    scope.breaks.reverse.forM patchJump
    let count := (← get).draft.countFrom scope.depth
    modify (·.onDraft (·.dropFrom scope.depth))
    emitPops count
    modify fun compiler => compiler.tell (.closed scope compiler.draft.chunk.size)

/-- Opens a local named by the token that was read last, unless its scope has one of that name. -/
def declareLocal : Compile Unit := do
  let name ← lastLexeme
  let draft := (← get).draft
  if draft.declares name then
    fail (.redeclared name)
  else if maxLocals ≤ draft.locals.length then
    fail .tooManyLocals
  else
    modify (·.onDraft (·.addLocal name))

/-- Reads the name of a variable and declares it. -/
def declare (expectation : Expectation) : Compile Binding := do
  expect .identifier expectation
  if 0 < (← get).draft.depth then
    declareLocal
    return .slot
  else
    return .global (← nameConstant (← lastLexeme))

/-- Makes a declared local visible; a global variable needs no such step. -/
def makeVisible : Binding → Compile Unit
  | .slot => modify (·.onDraft (·.initializeLocal))
  | .global _ => pure ()

/-- Gives a declared variable the value on top of the stack. -/
def define : Binding → Compile Unit
  | .slot => makeVisible .slot
  | .global index => emitWith .defineGlobal index

/-- What a name refers to at the present place. -/
def resolve (name : String) : Compile Reference := do
  match Local.resolve? name (← get).draft.locals with
  | some (_, ⟨_, none⟩) => fail (.ownInitializer name)
  | some (slot, _) => return .slot (UInt8.ofNat slot)
  | none => return .global (← nameConstant name)

end Compile

end StackScript
