import StackScript.Compiler.Program
import StackScript.Proofs.Tree

/-!
# Writing a tree

What the compiler does to the function under construction while it reads the tokens of a tree, with
the reading left out: a draft is turned into another one if some compiler that holds the first can
do the action and then holds the second.
-/

namespace StackScript

/-- Whether `action` can turn the draft `before` into `after` and give `result`. -/
def Compile.Effect {α : Type} (action : Compile α) (before : Draft) (result : α)
    (after : Draft) : Prop :=
  ∃ compiler compiler' : Compiler, action compiler = .ok result compiler' ∧
    compiler.draft = before ∧ compiler'.draft = after

open Compile

/-- Whether a declaration of `name` turns the draft `before` into `after` and gives `binding`. -/
def Draft.Declares (name : String) (before : Draft) (binding : Binding) (after : Draft) : Prop :=
  (0 < before.depth ∧ binding = .slot ∧ before.declares name = false ∧
    before.locals.length < maxLocals ∧ after = before.addLocal name) ∨
  (before.depth = 0 ∧ ∃ index, binding = .global index ∧
    Effect (nameConstant name) before index after)

mutual

/-- Whether writing an expression turns a draft into another one. -/
def Expression.Writes : Expression → Draft → Draft → Prop
  | .number value, before, after => Effect (emitConstant (.number value)) before () after
  | .string text, before, after => Effect (emitConstant (.string text)) before () after
  | .literal value, before, after => Effect (emit value.opcode) before () after
  | .reference name, before, after =>
    ∃ reference resolved, Effect (resolve name) before reference resolved ∧
      Effect reference.emitGet resolved () after
  | .assign name value, before, after =>
    ∃ reference resolved valued, Effect (resolve name) before reference resolved ∧
      value.Writes resolved valued ∧ Effect reference.emitSet valued () after
  | .unary operator operand, before, after =>
    ∃ operated, operand.Writes before operated ∧
      Effect (emit operator.opcode) operated () after
  | .binary operator left right, before, after =>
    ∃ first second, left.Writes before first ∧ right.Writes first second ∧
      Effect (operator.opcodes.forM emit) second () after
  | .and left right, before, after =>
    ∃ first jumped popped second decided, left.Writes before first ∧
      Effect (emitJump .jumpIfFalse) first decided jumped ∧
      Effect (emit .pop) jumped () popped ∧ right.Writes popped second ∧
      Effect (patchJump decided) second () after
  | .or left right, before, after =>
    ∃ first tested jumped patched popped second undecided decided, left.Writes before first ∧
      Effect (emitJump .jumpIfFalse) first undecided tested ∧
      Effect (emitJump .jump) tested decided jumped ∧
      Effect (patchJump undecided) jumped () patched ∧
      Effect (emit .pop) patched () popped ∧ right.Writes popped second ∧
      Effect (patchJump decided) second () after
  | .call callee arguments, before, after =>
    ∃ called given, callee.Writes before called ∧ Expression.WritesAll arguments called given ∧
      arguments.length ≤ maxArguments ∧
      Effect (emitWith .call (UInt8.ofNat arguments.length)) given () after

def Expression.WritesAll : List Expression → Draft → Draft → Prop
  | [], before, after => after = before
  | first :: rest, before, after =>
    ∃ middle, first.Writes before middle ∧ Expression.WritesAll rest middle after

end

namespace Statement

def WritesInitial : Option Expression → Draft → Draft → Prop
  | some value, before, after => value.Writes before after
  | none, before, after => Effect (emit .loadNil) before () after

/-- The condition of a counting loop and the jump that leaves the loop. -/
def WritesCondition : Option Expression → Draft → Option Nat → Draft → Prop
  | none, before, exit, after => exit = none ∧ after = before
  | some condition, before, exit, after =>
    ∃ tested jumped jump, condition.Writes before tested ∧
      Effect (emitJump .jumpIfFalse) tested jump jumped ∧
      Effect (emit .pop) jumped () after ∧ exit = some jump

/-- The increment of a counting loop and the offset where its next round starts. -/
def WritesIncrement (start : Nat) : Option Expression → Draft → Nat → Draft → Prop
  | none, before, again, after => again = start ∧ after = before
  | some increment, before, again, after =>
    ∃ jumped advanced popped looped jump, Effect (emitJump .jump) before jump jumped ∧
      again = jumped.chunk.size ∧ increment.Writes jumped advanced ∧
      Effect (emit .pop) advanced () popped ∧
      Effect (emitLoop start) popped () looped ∧
      Effect (patchJump jump) looped () after

def WritesParameters : List String → Draft → Draft → Prop
  | [], before, after => after = before
  | name :: rest, before, after =>
    ∃ binding declared defined, before.arity ≠ maxArguments ∧
      Draft.Declares name { before with arity := before.arity + 1 } binding declared ∧
      Effect (define binding) declared () defined ∧ WritesParameters rest defined after

/--
Whether writing a statement turns a draft into another one. The `stops` are the drafts between the
statements in it: the one before and the one after each of them, those of other functions apart.
-/
def Writes : Statement → Draft → Draft → List Draft → Prop
  | .empty, before, after, stops => after = before ∧ stops = []
  | .sequence first rest, before, after, stops =>
    ∃ middle stopsFirst stopsRest, first.Writes before middle stopsFirst ∧
      rest.Writes middle after stopsRest ∧ stops = stopsFirst ++ stopsRest
  | .expression value, before, after, stops =>
    ∃ valued, value.Writes before valued ∧ Effect (emit .pop) valued () after ∧
      stops = [before, after]
  | .print value, before, after, stops =>
    ∃ valued, value.Writes before valued ∧ Effect (emit .print) valued () after ∧
      stops = [before, after]
  | .varDeclaration name initial, before, after, stops =>
    ∃ binding declared valued, Draft.Declares name before binding declared ∧
      WritesInitial initial declared valued ∧ Effect (define binding) valued () after ∧
      stops = [before, after]
  | .funDeclaration name parameters body, before, after, stops =>
    ∃ binding declared visible begun done inner held stopsInside,
      Draft.Declares name before binding declared ∧
      Effect (makeVisible binding) declared () visible ∧
      WritesParameters parameters ((Draft.named name).openScope .function) begun ∧
      body.Writes begun done stopsInside ∧ Effect emitReturn done () inner ∧
      Effect (emitConstant (.function inner.function)) visible () held ∧
      Effect (define binding) held () after ∧ stops = [before, after]
  | .block body, before, after, stops =>
    ∃ opened done stopsInside, Effect (openScope .block) before () opened ∧
      body.Writes opened done stopsInside ∧ Effect closeScope done () after ∧
      stops = before :: after :: stopsInside
  | .conditional condition met unmet, before, after, stops =>
    ∃ tested jumped popped chosen skipped patched dropped other unmetJump doneJump stopsMet
        stopsUnmet,
      condition.Writes before tested ∧
      Effect (emitJump .jumpIfFalse) tested unmetJump jumped ∧
      Effect (emit .pop) jumped () popped ∧ met.Writes popped chosen stopsMet ∧
      Effect (emitJump .jump) chosen doneJump skipped ∧
      Effect (patchJump unmetJump) skipped () patched ∧
      Effect (emit .pop) patched () dropped ∧ unmet.Writes dropped other stopsUnmet ∧
      Effect (patchJump doneJump) other () after ∧
      stops = before :: after :: (stopsMet ++ stopsUnmet)
  | .whileLoop condition body, before, after, stops =>
    ∃ opened tested jumped popped done looped patched dropped exit stopsInside,
      Effect (openScope .loop) before () opened ∧ condition.Writes opened tested ∧
      Effect (emitJump .jumpIfFalse) tested exit jumped ∧
      Effect (emit .pop) jumped () popped ∧ body.Writes popped done stopsInside ∧
      Effect (emitLoop opened.chunk.size) done () looped ∧
      Effect (patchJump exit) looped () patched ∧
      Effect (emit .pop) patched () dropped ∧ Effect closeScope dropped () after ∧
      stops = before :: after :: stopsInside
  | .forLoop initial condition increment body, before, after, stops =>
    ∃ opened started tested advanced done looped left exit again stopsInitial stopsInside,
      Effect (openScope .loop) before () opened ∧
      initial.Writes opened started stopsInitial ∧
      WritesCondition condition started exit tested ∧
      WritesIncrement started.chunk.size increment tested again advanced ∧
      body.Writes { advanced with scopes := Scope.setLoopStart again advanced.scopes } done
        stopsInside ∧
      Effect (emitLoop again) done () looped ∧
      Effect (forExit exit) looped () left ∧ Effect closeScope left () after ∧
      stops = before :: after :: (stopsInitial ++ stopsInside)
  | .breakLoop, before, after, stops =>
    ∃ loop popped jumped jump, Scope.innermostLoop? before.scopes = some loop ∧
      Effect (emitPops (before.countFrom (loop.depth + 1))) before () popped ∧
      Effect (emitJump .jump) popped jump jumped ∧
      after = { jumped with scopes := Scope.addBreak jump jumped.scopes } ∧
      stops = [before, after]
  | .continueLoop, before, after, stops =>
    ∃ loop popped, Scope.innermostLoop? before.scopes = some loop ∧
      Effect (emitPops (before.countFrom (loop.depth + 1))) before () popped ∧
      Effect (emitLoop loop.loopStart) popped () after ∧ stops = [before, after]
  | .returnValue none, before, after, stops =>
    before.kind = .function ∧ Effect emitReturn before () after ∧
      stops = [before, after]
  | .returnValue (some value), before, after, stops =>
    before.kind = .function ∧ ∃ valued, value.Writes before valued ∧
      Effect (emit .ret) valued () after ∧ stops = [before, after]

/-- Whether a function with these parameters and this body is written as `function`. -/
def WritesFunction (name : String) (parameters : List String) (body : Statement)
    (function : Function) (stops : List Draft) : Prop :=
  ∃ begun done inner, WritesParameters parameters ((Draft.named name).openScope .function) begun ∧
    body.Writes begun done stops ∧ Effect emitReturn done () inner ∧
    function = inner.function

/-- Whether a program is written so. -/
def WritesScript (program : Statement) (script : Function) (stops : List Draft) : Prop :=
  ∃ done finished, program.Writes .script done stops ∧
    Effect emitReturn done () finished ∧ script = finished.function

end Statement

end StackScript
