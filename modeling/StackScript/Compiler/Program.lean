import StackScript.Compiler.Statement

/-!
# Programs

The levels of the grammar tied together, and the compiler as a function from texts to scripts. Since
`nested` counts every construct that nests, one level more than `maxNesting` is enough.
-/

namespace StackScript

namespace Parser

/-- The level at which everything is nested too deeply. -/
def exhausted : Parser where
  statement := Compile.failAhead .tooDeeplyNested
  alternative := Compile.failAhead .tooDeeplyNested
  functionBody := Compile.failAhead .tooDeeplyNested
  operand _ := Compile.failAhead .tooDeeplyNested

/-- The level above `inner`. -/
def above (inner : Parser) : Parser where
  statement := Compile.nested (Compile.statement inner)
  alternative := Compile.nested (Compile.conditional inner .parenAfterElif)
  functionBody := Compile.nested (Compile.functionBody inner)
  operand precedence := Compile.nested (Compile.climb inner precedence)

/-- The level with that many levels below it. -/
def level : Nat → Parser
  | 0 => exhausted
  | below + 1 => (level below).above

/-- The outermost level. -/
def top : Parser :=
  level (Compile.maxNesting + 1)

end Parser

namespace Compile

/-- Ends the function that is being written and gives it. -/
def finish : Compile Function := do
  emitReturn
  let function := (← get).draft.function
  modify (·.tell (.finished function))
  return function

/-- A whole program. -/
def program : Compile Function := do
  advance
  repeatWhile (return !(← accept .endOfText)) (declaration Parser.top)
  finish

end Compile

/-- Compiles the tokens of a program to its script. -/
def compileTokens (tokens : List Token) : Except CompileError Function :=
  match Compile.program (.ofTokens tokens) with
  | .ok script _ => .ok script
  | .error error _ => .error error

/-- Compiles a program text to its script. -/
def compile (text : String) : Except CompileError Function :=
  compileTokens (tokens text)

end StackScript
