import StackScript.Token

/-!
# Compile errors

Why a program is refused, and the token at which that was noticed. The wording of every
error is in this file.
-/

namespace StackScript

/-- A token that the grammar asks for and the place where it asks. -/
inductive Expectation where
  | variableName
  | functionName
  | parameterName
  | semicolonAfterVariable
  | semicolonAfterValue
  | semicolonAfterExpression
  | semicolonAfterLoopCondition
  | semicolonAfterBreak
  | semicolonAfterContinue
  | semicolonAfterReturnValue
  | parenAfterFunctionName
  | parenAfterParameters
  | braceBeforeBody
  | braceAfterBlock
  | parenAfterIf
  | parenAfterElif
  | parenAfterWhile
  | parenAfterFor
  | parenAfterCondition
  | parenAfterForClauses
  | parenAfterExpression
  | parenAfterArguments
deriving DecidableEq, Repr

/-- What is said when the token is not there. -/
def Expectation.message : Expectation → String
  | variableName => "Expect variable name."
  | functionName => "Expect function name."
  | parameterName => "Expect parameter name."
  | semicolonAfterVariable => "Expect ';' after variable declaration."
  | semicolonAfterValue => "Expect ';' after value."
  | semicolonAfterExpression => "Expect ';' after expression."
  | semicolonAfterLoopCondition => "Expect ';' after loop condition."
  | semicolonAfterBreak => "Expect ';' after 'break'."
  | semicolonAfterContinue => "Expect ';' after 'continue'."
  | semicolonAfterReturnValue => "Expect ';' after return value."
  | parenAfterFunctionName => "Expect '(' after function name."
  | parenAfterParameters => "Expect ')' after parameters."
  | braceBeforeBody => "Expect '\x7b' before function body."
  | braceAfterBlock => "Expect '\x7d' after block."
  | parenAfterIf => "Expect '(' after 'if'."
  | parenAfterElif => "Expect '(' after 'elif'."
  | parenAfterWhile => "Expect '(' after 'while'."
  | parenAfterFor => "Expect '(' after 'for'."
  | parenAfterCondition => "Expect ')' after condition."
  | parenAfterForClauses => "Expect ')' after for clauses."
  | parenAfterExpression => "Expect ')' after expression."
  | parenAfterArguments => "Expect ')' after arguments."

/-- Why a program is refused. -/
inductive CompileError.Kind where
  | expected (what : Expectation)
  | expectExpression
  | invalidAssignmentTarget
  | redeclared (name : String)
  | ownInitializer (name : String)
  | tooManyConstants
  | tooManyLocals
  | tooDeeplyNested
  | jumpTooLarge
  | loopTooLarge
  | breakOutsideLoop
  | continueOutsideLoop
  | returnOutsideFunction
  | tooManyParameters
  | tooManyArguments
  | invalidNumber (text : String)
  | unreadable (reason : ScanError)
  /-- A jump was to start or to end outside of the code: a defect of the caller, not of the text. -/
  | misplacedJump
deriving DecidableEq, Repr

/-- The wording of a reason. -/
def CompileError.Kind.message : CompileError.Kind → String
  | expected what => what.message
  | expectExpression => "Expect expression."
  | invalidAssignmentTarget => "Invalid assignment target."
  | redeclared name => s!"Already a variable named '{name}' in this scope."
  | ownInitializer name => s!"Can't read local variable '{name}' in its own initializer."
  | tooManyConstants => "Too many constants in one chunk."
  | tooManyLocals => "Too many local variables in function."
  | tooDeeplyNested => "Code nested too deeply."
  | jumpTooLarge => "Too much code to jump over."
  | loopTooLarge => "Loop body too large."
  | breakOutsideLoop => "Can't use 'break' outside of a loop."
  | continueOutsideLoop => "Can't use 'continue' outside of a loop."
  | returnOutsideFunction => "Can't return from top-level code."
  | tooManyParameters => "Can't have more than 255 parameters."
  | tooManyArguments => "Can't have more than 255 arguments."
  | invalidNumber text => s!"Invalid number literal '{text}'."
  | unreadable .unexpectedCharacter => "Unexpected character."
  | unreadable .unterminatedString => "Unterminated string."
  | misplacedJump => "Jump outside of the code."

/-- An error with the line and the characters of the token at which it was noticed. -/
structure CompileError where
  kind : CompileError.Kind
  line : Nat
  lexeme : String
deriving DecidableEq, Repr

namespace CompileError

/-- An error at a token. -/
def atToken (token : Token) (kind : Kind) : CompileError :=
  ⟨kind, token.line, token.lexeme⟩

/-- Where the error was noticed; no characters are left at the end of the text. -/
def place (error : CompileError) : String :=
  if error.lexeme.isEmpty then "at end" else s!"at '{error.lexeme}'"

/-- The error as it is shown. -/
def message (error : CompileError) : String :=
  s!"[line {error.line}] Error {error.place}: {error.kind.message}"

end CompileError

end StackScript
