import StackScript.CompileError
import StackScript.Draft
import StackScript.Precedence
import StackScript.Token.Scan

/-!
# The compiler

The compiler reads tokens from left to right and writes code as it goes, with one token of
lookahead. Its state is what it has read and the functions that it is writing.

Statements, alternatives, functions and operands nest. Each goes through `nested`, which refuses to
go deeper than `maxNesting`, so the actions for one level of the grammar are functions of those for
the level below it, gathered in a `Parser`.
-/

namespace StackScript

/-- What the compiler tells about its progress. -/
inductive Compiler.Event where
  | finished (function : Function)
  | closed (scope : Scope) (stop : Nat)

/-- The state of the compiler. -/
structure Compiler where
  /-- The tokens that follow the current one. -/
  upcoming : List Token
  /-- The token that is looked at. -/
  current : Token
  /-- The token that was read last. -/
  previous : Token
  /-- The innermost function that is being written. -/
  draft : Draft
  /-- The functions around it, innermost first. -/
  enclosing : List Draft
  /-- The number of nested constructs that are open. -/
  nesting : Nat
  /-- What has been told so far. -/
  journal : Array Compiler.Event

namespace Compiler

/-- A compiler that has read nothing of a program yet. -/
def ofTokens (tokens : List Token) : Compiler :=
  ⟨tokens, .unread, .unread, .script, [], 0, #[]⟩

/-- The compiler in front of a text. -/
def ofText (text : String) : Compiler :=
  ofTokens (tokens text)

/-- Moves on by one token. Behind the last token the compiler stays where it is. -/
def shift (compiler : Compiler) : Compiler :=
  match compiler.upcoming with
  | [] => { compiler with previous := compiler.current }
  | token :: rest =>
    { compiler with previous := compiler.current, current := token, upcoming := rest }

/-- Changes the innermost function. -/
@[inline] def onDraft (compiler : Compiler) (change : Draft → Draft) : Compiler :=
  { compiler with draft := change compiler.draft }

/-- Changes the innermost code. -/
@[inline] def onChunk (compiler : Compiler) (change : Chunk Constant → Chunk Constant) : Compiler :=
  compiler.onDraft fun draft => { draft with chunk := change draft.chunk }

def tell (compiler : Compiler) (event : Event) : Compiler :=
  { compiler with journal := compiler.journal.push event }

end Compiler

/-- An action of the compiler; an error keeps the state that it left behind. -/
abbrev Compile := EStateM CompileError Compiler

namespace Compile

variable {α : Type}

/-- Fails at the token that was read last. -/
def fail (kind : CompileError.Kind) : Compile α := fun compiler =>
  .error (.atToken compiler.previous kind) compiler

/-- Fails at the token that is looked at. -/
def failAhead (kind : CompileError.Kind) : Compile α := fun compiler =>
  .error (.atToken compiler.current kind) compiler

/-- Reads a token; fails if the one behind it is an error. -/
def advance : Compile Unit := fun compiler =>
  let moved := compiler.shift
  match moved.current.kind with
  | .error reason => .error (.atToken moved.current (.unreadable reason)) moved
  | _ => .ok () moved

/-- The kind of the token ahead. -/
def lookahead : Compile Token.Kind := fun compiler =>
  .ok compiler.current.kind compiler

/-- The characters of the token read last. -/
def lastLexeme : Compile String := fun compiler =>
  .ok compiler.previous.lexeme compiler

/-- Reads a token if it is of this kind, and tells whether it was. -/
def accept (kind : Token.Kind) : Compile Bool := do
  if (← lookahead) = kind then
    advance
    return true
  else
    return false

/-- Reads a token of this kind, or fails. -/
def expect (kind : Token.Kind) (expectation : Expectation) : Compile Unit := do
  if (← lookahead) = kind then advance else failAhead (.expected expectation)

/-- How deeply a program may nest. -/
def maxNesting : Nat := 256

/-- Does `body` one level deeper, unless that is too deep. -/
def nested (body : Compile Unit) : Compile Unit := fun compiler =>
  if compiler.nesting < maxNesting then
    match body { compiler with nesting := compiler.nesting + 1 } with
    | .ok () after => .ok () { after with nesting := after.nesting - 1 }
    | .error error after => .error error { after with nesting := after.nesting - 1 }
  else .error (.atToken compiler.current .tooDeeplyNested) compiler

/--
Does `round` as long as `more` holds, but no more often than there are tokens in `bound`.
-/
def repeatWithin (more : Compile Bool) (round : Compile Unit) : List Token → Compile Unit
  | [] => do
    let _ ← more
    pure ()
  | _ :: bound => do
    if ← more then
      round
      repeatWithin more round bound

/-- Does `round` as long as `more` holds. Every round has to read a token, which bounds them. -/
def repeatWhile (more : Compile Bool) (round : Compile Unit) : Compile Unit := do
  repeatWithin more round (← get).upcoming

/-- Items with commas between them, but no more than one for each token in `bound` and one. -/
def separatedWithin (item : α → Compile α) : List Token → α → Compile α
  | [], state => item state
  | _ :: bound, state => do
    let state ← item state
    if ← accept .comma then separatedWithin item bound state else return state

/-- One item or more with commas between them. Every item has to read a token. -/
def separated (item : α → Compile α) (state : α) : Compile α := do
  separatedWithin item (← get).upcoming state

end Compile

/-- The actions that nest, for one level of the grammar. -/
structure Parser where
  statement : Compile Unit
  /-- What follows the word that introduces a further condition. -/
  alternative : Compile Unit
  /-- What follows the name of a function. -/
  functionBody : Compile Unit
  /-- An expression whose operators bind at least that tightly. -/
  operand : Precedence → Compile Unit

/-- An expression of any precedence. -/
def Parser.expression (inner : Parser) : Compile Unit :=
  inner.operand .assignment

end StackScript
