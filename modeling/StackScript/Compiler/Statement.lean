import StackScript.Compiler.Expression

/-!
# Statements and declarations

Statements leave the stack as they find it, declarations add a local to it or define a global
variable. Loops are scopes, so that the jumps out of a loop are known where it ends.
-/

namespace StackScript.Compile

/-- An expression as a statement. -/
def expressionStatement (inner : Parser) : Compile Unit := do
  inner.expression
  expect .semicolon .semicolonAfterExpression
  emit .pop

/-- A print statement. -/
def printStatement (inner : Parser) : Compile Unit := do
  inner.expression
  expect .semicolon .semicolonAfterValue
  emit .print

/-- A variable, behind its word. -/
def variableDeclaration (inner : Parser) : Compile Unit := do
  let binding ← declare .variableName
  if ← accept .equal then
    inner.expression
  else
    emit .loadNil
  expect .semicolon .semicolonAfterVariable
  define binding

/-- A function, behind the word that declares it. Its name is visible in its body. -/
def functionDeclaration (inner : Parser) : Compile Unit := do
  let binding ← declare .functionName
  makeVisible binding
  inner.functionBody
  define binding

/-- A declaration or a statement. -/
def declaration (inner : Parser) : Compile Unit := do
  match ← lookahead with
  | .keyword .funKw =>
    advance
    functionDeclaration inner
  | .keyword .varKw =>
    advance
    variableDeclaration inner
  | _ => inner.statement

/-- Whether a block goes on. -/
def blockContinues : Compile Bool := do
  let kind ← lookahead
  return kind ≠ .rightBrace && kind ≠ .endOfText

/-- Declarations and statements up to a closing brace. -/
def block (inner : Parser) : Compile Unit := do
  repeatWhile blockContinues (declaration inner)
  expect .rightBrace .braceAfterBlock

/-- A block with a scope of its own, behind its opening brace. -/
def blockStatement (inner : Parser) : Compile Unit := do
  openScope .block
  block inner
  closeScope

/-- What stands behind the first branch of a conditional. -/
def otherBranches (inner : Parser) : Compile Unit := do
  match ← lookahead with
  | .keyword .elifKw =>
    advance
    inner.alternative
  | .keyword .elseKw =>
    advance
    inner.statement
  | _ => pure ()

/-- A conditional, behind the word that introduces its condition. -/
def conditional (inner : Parser) (opening : Expectation) : Compile Unit := do
  expect .leftParen opening
  inner.expression
  expect .rightParen .parenAfterCondition
  let unmet ← emitJump .jumpIfFalse
  emit .pop
  inner.statement
  let done ← emitJump .jump
  patchJump unmet
  emit .pop
  otherBranches inner
  patchJump done

/-- A loop with a condition. -/
def whileStatement (inner : Parser) : Compile Unit := do
  openScope .loop
  let start ← codeSize
  expect .leftParen .parenAfterWhile
  inner.expression
  expect .rightParen .parenAfterCondition
  let exit ← emitJump .jumpIfFalse
  emit .pop
  inner.statement
  emitLoop start
  patchJump exit
  emit .pop
  closeScope

/-- The first clause of a counting loop. -/
def forInitializer (inner : Parser) : Compile Unit := do
  match ← lookahead with
  | .semicolon => advance
  | .keyword .varKw =>
    advance
    variableDeclaration inner
  | _ => expressionStatement inner

/-- The second clause of a counting loop; gives the jump that leaves the loop, if there is one. -/
def forCondition (inner : Parser) : Compile (Option Nat) := do
  if ← accept .semicolon then
    return none
  else
    inner.expression
    expect .semicolon .semicolonAfterLoopCondition
    let exit ← emitJump .jumpIfFalse
    emit .pop
    return some exit

/--
The third clause of a counting loop. It is written in front of the body, which jumps back to it;
from it the loop goes on at `start`. Gives where the body jumps back to.
-/
def forIncrement (inner : Parser) (start : Nat) : Compile Nat := do
  if ← accept .rightParen then
    return start
  else
    let body ← emitJump .jump
    let increment ← codeSize
    inner.expression
    emit .pop
    expect .rightParen .parenAfterForClauses
    emitLoop start
    patchJump body
    return increment

def forExit : Option Nat → Compile Unit
  | some jump => do
    patchJump jump
    emit .pop
  | none => pure ()

/-- A counting loop. -/
def forStatement (inner : Parser) : Compile Unit := do
  openScope .loop
  expect .leftParen .parenAfterFor
  forInitializer inner
  let start ← codeSize
  let exit ← forCondition inner
  let again ← forIncrement inner start
  modify (·.onDraft fun draft => { draft with scopes := Scope.setLoopStart again draft.scopes })
  inner.statement
  emitLoop again
  forExit exit
  closeScope

/-- Leaves the innermost loop. -/
def breakStatement : Compile Unit := do
  match Scope.innermostLoop? (← get).draft.scopes with
  | none => fail .breakOutsideLoop
  | some loop =>
    expect .semicolon .semicolonAfterBreak
    emitPops ((← get).draft.countFrom (loop.depth + 1))
    let jump ← emitJump .jump
    modify (·.onDraft fun draft => { draft with scopes := Scope.addBreak jump draft.scopes })

/-- Starts the next round. -/
def continueStatement : Compile Unit := do
  match Scope.innermostLoop? (← get).draft.scopes with
  | none => fail .continueOutsideLoop
  | some loop =>
    expect .semicolon .semicolonAfterContinue
    emitPops ((← get).draft.countFrom (loop.depth + 1))
    emitLoop loop.loopStart

/-- A return statement. -/
def returnStatement (inner : Parser) : Compile Unit := do
  match (← get).draft.kind with
  | .script => fail .returnOutsideFunction
  | .function =>
    if ← accept .semicolon then
      emitReturn
    else
      inner.expression
      expect .semicolon .semicolonAfterReturnValue
      emit .ret

/-- A statement, by its first token. -/
def statement (inner : Parser) : Compile Unit := do
  match ← lookahead with
  | .keyword .printKw =>
    advance
    printStatement inner
  | .keyword .ifKw =>
    advance
    conditional inner .parenAfterIf
  | .keyword .whileKw =>
    advance
    whileStatement inner
  | .keyword .forKw =>
    advance
    forStatement inner
  | .keyword .breakKw =>
    advance
    breakStatement
  | .keyword .continueKw =>
    advance
    continueStatement
  | .keyword .returnKw =>
    advance
    returnStatement inner
  | .leftBrace =>
    advance
    blockStatement inner
  | _ => expressionStatement inner

/-- One more parameter of the function that is being written. -/
def parameter (_ : Unit) : Compile Unit := do
  if (← get).draft.arity = maxArguments then
    failAhead .tooManyParameters
  else
    modify (·.onDraft fun draft => { draft with arity := draft.arity + 1 })
    define (← declare .parameterName)

/-- The parameters of a function. -/
def parameters : Compile Unit := do
  expect .leftParen .parenAfterFunctionName
  if (← lookahead) ≠ .rightParen then
    separated parameter ()
  expect .rightParen .parenAfterParameters

/-- Starts a function with the name that was read last. -/
def beginFunction : Compile Unit := do
  let name ← lastLexeme
  modify fun compiler =>
    { compiler with
      draft := (Draft.named name).openScope .function
      enclosing := compiler.draft :: compiler.enclosing }

/-- Ends the function that is being written, and goes back to the one around it. -/
def endFunction : Compile Function := fun compiler =>
  let function := compiler.draft.function
  let (draft, enclosing) :=
    match compiler.enclosing with
    | outer :: others => (outer, others)
    | [] => (Draft.script, [])
  .ok function ({ compiler with draft, enclosing }.tell (.finished function))

/--
The parameters and the body of a function. The locals of a function need not be discarded,
because a return discards all of them.
-/
def functionBody (inner : Parser) : Compile Unit := do
  beginFunction
  parameters
  expect .leftBrace .braceBeforeBody
  block inner
  emitReturn
  emitConstant (.function (← endFunction))

end StackScript.Compile
