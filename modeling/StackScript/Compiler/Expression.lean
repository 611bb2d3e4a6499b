import StackScript.Compiler.Variable
import StackScript.Number.Literal

/-!
# Expressions

An expression is a leading form followed by trailing forms that bind tightly enough. Code is
written in the order of evaluation: operands first, then the operator. The operators `and` and
`or` jump over their second operand when the first one decides.
-/

namespace StackScript.Compile

/-- The greatest number of parameters of a function and of arguments of a call. -/
def maxArguments : Nat := 255

/-- A string without its quotes. -/
def unquote (lexeme : String) : String :=
  String.ofList lexeme.toList.tail.dropLast

/-- A number literal. -/
def number : Compile Unit := do
  let lexeme ← lastLexeme
  match Number.parse? lexeme with
  | some value => emitConstant (.number value)
  | none => fail (.invalidNumber lexeme)

/-- A string literal. -/
def string : Compile Unit := do
  emitConstant (.string (unquote (← lastLexeme)))

/-- A name, read already, as a variable or, where allowed, as the target of an assignment. -/
def variableUse (inner : Parser) (assignable : Bool) : Compile Unit := do
  let reference ← resolve (← lastLexeme)
  if assignable && (← lookahead) = .equal then
    advance
    inner.expression
    reference.emitSet
  else
    reference.emitGet

/-- One more argument of a call, behind `count` others. -/
def argument (inner : Parser) (count : Nat) : Compile Nat := do
  inner.expression
  if count = maxArguments then fail .tooManyArguments else return count + 1

def arguments (inner : Parser) : Compile Nat := do
  let count ← if (← lookahead) = .rightParen then pure 0 else separated (argument inner) 0
  expect .rightParen .parenAfterArguments
  return count

/-- What an expression starts with; its first token is read already. -/
def leading (inner : Parser) (assignable : Bool) : Leading → Compile Unit
  | .grouping => do
    inner.expression
    expect .rightParen .parenAfterExpression
  | .unary operator => do
    inner.operand .unary
    emit operator.opcode
  | .variable => variableUse inner assignable
  | .string => string
  | .number => number
  | .literal value => emit value.opcode

/-- What an expression goes on with; its first token is read already. -/
def trailing (inner : Parser) : Trailing → Compile Unit
  | .call => do
    let count ← arguments inner
    emitWith .call (UInt8.ofNat count)
  | .binary operator => do
    inner.operand operator.precedence.tighter
    operator.opcodes.forM emit
  | .and => do
    let decided ← emitJump .jumpIfFalse
    emit .pop
    inner.operand .and
    patchJump decided
  | .or => do
    let undecided ← emitJump .jumpIfFalse
    let decided ← emitJump .jump
    patchJump undecided
    emit .pop
    inner.operand .or
    patchJump decided

/-- Whether the token that is looked at continues an expression at least that tightly. -/
def continues (precedence : Precedence) : Compile Bool := do
  return precedence ≤ (← lookahead).precedence

/-- One trailing form. -/
def continueExpression (inner : Parser) : Compile Unit := do
  let kind ← lookahead
  advance
  match kind.trailing? with
  | some form => trailing inner form
  | none => pure ()

/--
An expression whose operators bind at least that tightly. An equals sign behind it is an
assignment to something that is no variable.
-/
def climb (inner : Parser) (precedence : Precedence) : Compile Unit := do
  let kind ← lookahead
  advance
  match kind.leading? with
  | none => fail .expectExpression
  | some form =>
    let assignable : Bool := precedence ≤ .assignment
    leading inner assignable form
    repeatWhile (continues precedence) (continueExpression inner)
    if assignable && (← lookahead) = .equal then
      advance
      fail .invalidAssignmentTarget

end StackScript.Compile
