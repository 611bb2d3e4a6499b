import StackScript.Compiler.Program
import StackScript.Proofs.Tree

/-!
# Writing a tree without its tokens

The code of a tree, written by the actions of the compiler itself in the order in which the compiler
uses them while it reads. Where the compiler takes a name from the token that it has just read, the
name is taken from the tree.
-/

namespace StackScript

namespace Compile

/-- Opens a local of this name, unless its scope has one already. -/
def declareLocalAs (name : String) : Compile Unit := do
  let draft := (← get).draft
  if draft.declares name then
    fail (.redeclared name)
  else if maxLocals ≤ draft.locals.length then
    fail .tooManyLocals
  else
    modify (·.onDraft (·.addLocal name))

def declareAs (name : String) : Compile Binding := do
  if 0 < (← get).draft.depth then
    declareLocalAs name
    return .slot
  else
    return .global (← nameConstant name)

def parameterAs (name : String) : Compile Unit := do
  if (← get).draft.arity = maxArguments then
    fail .tooManyParameters
  else
    modify (·.onDraft fun draft => { draft with arity := draft.arity + 1 })
    define (← declareAs name)

def beginFunctionAs (name : String) : Compile Unit :=
  modify fun compiler =>
    { compiler with
      draft := (Draft.named name).openScope .function
      enclosing := compiler.draft :: compiler.enclosing }

end Compile

open Compile

mutual

/-- Writes an expression. -/
def Expression.generate : Expression → Compile Unit
  | .number value => emitConstant (.number value)
  | .string text => emitConstant (.string text)
  | .literal value => emit value.opcode
  | .reference name => do
    let reference ← resolve name
    reference.emitGet
  | .assign name value => do
    let reference ← resolve name
    value.generate
    reference.emitSet
  | .unary operator operand => do
    operand.generate
    emit operator.opcode
  | .binary operator left right => do
    left.generate
    right.generate
    operator.opcodes.forM emit
  | .and left right => do
    left.generate
    let decided ← emitJump .jumpIfFalse
    emit .pop
    right.generate
    patchJump decided
  | .or left right => do
    left.generate
    let undecided ← emitJump .jumpIfFalse
    let decided ← emitJump .jump
    patchJump undecided
    emit .pop
    right.generate
    patchJump decided
  | .call callee arguments => do
    callee.generate
    Expression.generateAll arguments 0
    emitWith .call (UInt8.ofNat arguments.length)

def Expression.generateAll : List Expression → Nat → Compile Unit
  | [], _ => pure ()
  | first :: rest, count => do
    first.generate
    if count = maxArguments then
      fail .tooManyArguments
    else
      Expression.generateAll rest (count + 1)

end

namespace Statement

def generateInitial : Option Expression → Compile Unit
  | some value => value.generate
  | none => emit .loadNil

/-- Writes the condition of a counting loop; gives the jump that leaves the loop. -/
def generateCondition : Option Expression → Compile (Option Nat)
  | none => return none
  | some condition => do
    condition.generate
    let exit ← emitJump .jumpIfFalse
    emit .pop
    return some exit

/-- Writes the increment of a counting loop; gives where its next round starts. -/
def generateIncrement (start : Nat) : Option Expression → Compile Nat
  | none => return start
  | some increment => do
    let body ← emitJump .jump
    let again ← codeSize
    increment.generate
    emit .pop
    emitLoop start
    patchJump body
    return again

def generateResult : Option Expression → Compile Unit
  | none => emitReturn
  | some value => do
    value.generate
    emit .ret

/-- Writes a statement. -/
def generate : Statement → Compile Unit
  | .empty => pure ()
  | .sequence first rest => do
    first.generate
    rest.generate
  | .expression value => do
    value.generate
    emit .pop
  | .print value => do
    value.generate
    emit .print
  | .varDeclaration name initial => do
    let binding ← declareAs name
    generateInitial initial
    define binding
  | .funDeclaration name parameters body => do
    let binding ← declareAs name
    makeVisible binding
    beginFunctionAs name
    parameters.forM parameterAs
    body.generate
    emitReturn
    emitConstant (.function (← endFunction))
    define binding
  | .block body => do
    openScope .block
    body.generate
    closeScope
  | .conditional condition met unmet => do
    condition.generate
    let skip ← emitJump .jumpIfFalse
    emit .pop
    met.generate
    let done ← emitJump .jump
    patchJump skip
    emit .pop
    unmet.generate
    patchJump done
  | .whileLoop condition body => do
    openScope .loop
    let start ← codeSize
    condition.generate
    let exit ← emitJump .jumpIfFalse
    emit .pop
    body.generate
    emitLoop start
    patchJump exit
    emit .pop
    closeScope
  | .forLoop initial condition increment body => do
    openScope .loop
    initial.generate
    let start ← codeSize
    let exit ← generateCondition condition
    let again ← generateIncrement start increment
    modify (·.onDraft fun draft => { draft with scopes := Scope.setLoopStart again draft.scopes })
    body.generate
    emitLoop again
    forExit exit
    closeScope
  | .breakLoop => do
    match Scope.innermostLoop? (← get).draft.scopes with
    | none => fail .breakOutsideLoop
    | some loop =>
      emitPops ((← get).draft.countFrom (loop.depth + 1))
      let jump ← emitJump .jump
      modify (·.onDraft fun draft => { draft with scopes := Scope.addBreak jump draft.scopes })
  | .continueLoop => do
    match Scope.innermostLoop? (← get).draft.scopes with
    | none => fail .continueOutsideLoop
    | some loop =>
      emitPops ((← get).draft.countFrom (loop.depth + 1))
      emitLoop loop.loopStart
  | .returnValue value => do
    match (← get).draft.kind with
    | .script => fail .returnOutsideFunction
    | .function => generateResult value

/-- Writes a program. -/
def generateScript (program : Statement) : Compile Function := do
  program.generate
  finish

end Statement

-- Their equations are derived here once, for all modules that rewrite with them.
attribute [local simp] Expression.generate Expression.generateAll Statement.generate

end StackScript
