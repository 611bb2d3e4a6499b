import StackScript.Proofs.Building
import StackScript.Proofs.Lexemes
import StackScript.Proofs.Tables

/-!
# The compiler under observation

It is noted in which states the steps of the compiler start, which procedures are called, and in
which states they are entered and left. An observed run may also be cut off, after a number of
rounds of a loop or at some depth of calls, and then it has no result.
-/

namespace StackScript

open Compile (Built Known Mode maxNesting)

/-- What is noted of a run of the compiler. -/
inductive Observation where
  | stepped (compiler : Compiler)
  | called (caller procedure : Procedure) (entry : Compiler)
  | entered (caller procedure : Procedure) (entry : Compiler)
  /-- A procedure returns from a call that was entered in some state, with or without an error. -/
  | returned (procedure : Procedure) (entry : Compiler) (succeeded : Bool) (exit : Compiler)

/-- What was noted of a run, and its result unless it was cut off. -/
structure Run (α : Type) where
  observations : List Observation
  result : Option (EStateM.Result CompileError Compiler α)

/-- An action of the compiler under observation. -/
def Observed (α : Type) : Type :=
  Compiler → Run α

namespace Observed

variable {α β : Type}

/-- Goes on behind a run. -/
def andThen (next : α → Observed β) : Run α → Run β
  | ⟨observations, some (.ok value after)⟩ =>
    ⟨observations ++ (next value after).observations, (next value after).result⟩
  | ⟨observations, some (.error error after)⟩ => ⟨observations, some (.error error after)⟩
  | ⟨observations, none⟩ => ⟨observations, none⟩

instance : Monad Observed where
  pure value := fun compiler => ⟨[], some (.ok value compiler)⟩
  bind first next := fun compiler => andThen next (first compiler)

/-- A run that is cut off. -/
def cut : Observed α := fun _ =>
  ⟨[], none⟩

/-- A step that is noted. -/
def step (action : Compile α) : Observed α := fun compiler =>
  ⟨[.stepped compiler], some (action compiler)⟩

/-- The state that was reached. -/
def reached : EStateM.Result CompileError Compiler α → Compiler
  | .ok _ after => after
  | .error _ after => after

def succeeded : EStateM.Result CompileError Compiler α → Bool
  | .ok _ _ => true
  | .error _ _ => false

/-- The run of a procedure, with its call and its return; cut off where there is no depth left. -/
def perform (procedure : Procedure) (call : Compiler → Observation) (body : Nat → Observed Unit) :
    Nat → Observed Unit
  | 0 => cut
  | depth + 1 => fun compiler =>
    match body depth compiler with
    | ⟨observations, some result⟩ =>
      ⟨call compiler :: observations ++
        [.returned procedure compiler (succeeded result) (reached result)], some result⟩
    | ⟨observations, none⟩ => ⟨call compiler :: observations, none⟩

/-- The result one level up. -/
def lowered : EStateM.Result CompileError Compiler Unit → EStateM.Result CompileError Compiler Unit
  | .ok () after => .ok () { after with nesting := after.nesting - 1 }
  | .error error after => .error error { after with nesting := after.nesting - 1 }

/-- Does `body` one level deeper. -/
def nested (body : Observed Unit) : Observed Unit := fun compiler =>
  if compiler.nesting < maxNesting then
    match body { compiler with nesting := compiler.nesting + 1 } with
    | ⟨observations, result⟩ => ⟨observations, result.map lowered⟩
  else step (Compile.failAhead .tooDeeplyNested) compiler

/-- Does `round` as long as `more` holds, but is cut off after a number of rounds. -/
def repeatWhile (more : Observed Bool) (round : Observed Unit) : Nat → Observed Unit
  | 0 => cut
  | rounds + 1 => do
    if ← more then
      round
      repeatWhile more round rounds

/-- One item or more with commas between them; cut off after a number of items. -/
def separated (item : α → Observed α) : Nat → α → Observed α
  | 0, _ => cut
  | rounds + 1, state => do
    let state ← item state
    if ← step (Compile.accept .comma) then separated item rounds state else return state

end Observed

open Observed (step)

/-- An action under observation, as it is put together. -/
def Compile.Built.observe (rounds : Nat) {α : Type} {caller : Procedure} {levels : Nat}
    {known : Known} {mode : Mode} {action : Compile α}
    (built : Built caller levels known mode action) (depth : Nat) :
    Observed α :=
  match built with
  | bind first second => do
    let value ← first.observe rounds depth
    (second value).observe rounds depth
  | recast _ built => built.observe rounds depth
  | read rest => do
    let kind ← step Compile.lookahead
    step Compile.advance
    (rest kind).observe rounds depth
  | call inner _ _ _ body => .perform inner (.called caller inner) (body.observe rounds) depth
  | enter inner _ _ body =>
    .nested (.perform inner (.entered caller inner) (body.observe rounds) depth)
  | repeatReading _ asks does =>
    .repeatWhile (asks.observe rounds depth) (do
      let kind ← step Compile.lookahead
      step Compile.advance
      (does kind).observe rounds depth) rounds
  | repeatDeclaring _ asks does =>
    .repeatWhile (asks.observe rounds depth) (does.observe rounds depth) rounds
  | separated each state => .separated (fun state => (each state).observe rounds depth) rounds state
  | @jump _ _ _ _ _ opcode _ _ rest => do
    let jump ← step (emitJump opcode)
    (rest jump).observe rounds depth
  | mark rest => do
    let size ← step codeSize
    (rest size).observe rounds depth
  | scope kind inside => do
    step (openScope kind)
    inside.observe rounds depth
    step closeScope
  | use _ value assignable => do
    let name ← step lastLexeme
    let reference ← step (resolve name)
    if assignable && (← step Compile.lookahead) = .equal then
      step Compile.advance
      value.observe rounds depth
      step reference.emitSet
    else
      step reference.emitGet
  | declaring _ expectation inside => do
    let binding ← step (declare expectation)
    inside.observe rounds depth
    step (define binding)
  | declaringVisibly expectation inside => do
    let binding ← step (declare expectation)
    step (makeVisible binding)
    inside.observe rounds depth
    step (define binding)
  | function _ _ inside => do
    step beginFunction
    inside.observe rounds depth
    step Compile.emitReturn
    step (do emitConstant (.function (← endFunction)))
  | count rest => do
    if (← step get).draft.arity = maxArguments then
      step (failAhead .tooManyParameters)
    else
      step (modify (·.onDraft fun draft => { draft with arity := draft.arity + 1 }))
      rest.observe rounds depth
  | inFunction rest => do
    match (← step get).draft.kind with
    | .script => step (fail .returnOutsideFunction)
    | .function => rest.observe rounds depth
  | _ => step action

/-- The compiler at work on a text, observed. -/
def observe (rounds depth : Nat) (text : String) : Run Function :=
  (do
    step Compile.advance
    (Built.program : Built .program (maxNesting + 1) .nothing .free _).observe rounds depth
    step Compile.finish : Observed Function) (.ofText text)

/-! ## What is noted -/

/-- Whether the compiler has read something between two states, and not the end of the text. -/
def Compiler.Consumes (entry exit : Compiler) : Prop :=
  ∃ taken, taken ≠ [] ∧ entry.stream = taken ++ exit.stream ∧
    ∀ token ∈ taken, token.kind ≠ .endOfText

/-- Whether tokens can be cut out of the text and slots are numbered by bytes. -/
structure Compiler.Defined (text : String) (compiler : Compiler) : Prop where
  spans : ∀ token ∈ compiler.previous :: compiler.stream,
    IsSpan text token.start (token.start + token.length)
  slots : ∀ name slot entry, Local.resolve? name compiler.draft.locals = some (slot, entry) →
    (UInt8.ofNat slot).toNat = slot

namespace Procedure

/-- The procedures that never succeed without reading. -/
def isProductive : Procedure → Bool
  | declaration | statement | expression | operand _ => true
  | _ => false

def literals : List Token.Kind :=
  [.keyword .falseKw, .keyword .trueKw, .keyword .nilKw]

def unaries : List Token.Kind :=
  [.minus, .bang]

def binaries : List Token.Kind :=
  [.plus, .minus, .star, .slash, .equalEqual, .bangEqual, .greater, .greaterEqual, .less,
    .lessEqual]

/-- Whether a procedure is called behind a token that it can do something with. -/
def Suits (token : Token) : Procedure → Prop
  | leading _ (.literal _) => token.kind ∈ literals
  | leading _ (.unary _) => token.kind ∈ unaries
  | leading _ .number => (Number.parse? token.lexeme).isSome = true
  | leading _ .string =>
    1 ≤ token.lexeme.utf8ByteSize ∧ IsSpan token.lexeme 1 (token.lexeme.utf8ByteSize - 1)
  | trailing (.binary _) => token.kind ∈ binaries
  | _ => True

/-- Whether a procedure is called before the end of a text, with levels and room left for it. -/
def Performs (procedure : Procedure) (entry : Compiler) (succeeded : Bool) (exit : Compiler) :
    Prop :=
  ∃ levels, entry.Ends ∧ maxNesting < levels + entry.nesting ∧
    entry.draft.chunk.constants.size ≤ Chunk.maxConstants ∧
    succeeded = Observed.succeeded (procedure.action levels entry) ∧
    exit = Observed.reached (procedure.action levels entry)

/-- Whether the innermost call, parts of an expression aside, declares a variable. -/
def Initializing : List Procedure → Prop
  | [] => False
  | procedure :: outer =>
    procedure = variableDeclaration ∨ procedure.isPart = true ∧ Initializing outer

end Procedure

/-- Whether all functions at hand are tidy, with a local to be initialized or none. -/
structure Compiler.Tidy (calls : List Procedure) (compiler : Compiler) : Prop where
  draft : compiler.draft.Tidy
  closed : compiler.draft.Closed ∨ Procedure.Initializing calls
  around : ∀ outer ∈ compiler.enclosing, outer.Tidy ∧ outer.Closed

namespace Observation

variable {calls : List Procedure} {text : String}

/-- Whether what was noted is in order, with these calls open, the innermost first. -/
def Proper (text : String) (calls : List Procedure) : Observation → Prop
  | stepped compiler => compiler.Defined text
  | called caller procedure entry =>
    entry.nesting ≤ maxNesting ∧ procedure.rank < caller.rank ∧ procedure.Suits entry.previous ∧
      entry.Tidy calls
  | entered _ _ entry => entry.nesting ≤ maxNesting ∧ entry.Tidy calls
  | returned procedure entry succeeded exit =>
    exit.nesting = entry.nesting ∧
      (succeeded = true → procedure.isProductive = true → entry.Consumes exit) ∧
      (succeeded = true → exit.Tidy calls.tail) ∧ procedure.Performs entry succeeded exit

/-- The calls that are open behind an observation, the innermost first. -/
def track (calls : List Procedure) : Observation → List Procedure
  | stepped _ => calls
  | called _ procedure _ | entered _ procedure _ => procedure :: calls
  | returned _ _ _ _ => calls.tail

/-- Whether all that was noted is in order. -/
def AllProper (text : String) : List Procedure → List Observation → Prop
  | _, [] => True
  | calls, observation :: rest =>
    observation.Proper text calls ∧ AllProper text (observation.track calls) rest

theorem allProper_append {front back : List Observation} :
    AllProper text calls (front ++ back) ↔
      AllProper text calls front ∧ AllProper text (front.foldl track calls) back := by
  induction front generalizing calls with
  | nil => exact ⟨fun proper => ⟨trivial, proper⟩, And.right⟩
  | cons observation front ih =>
    rw [List.cons_append, AllProper, AllProper, ih, and_assoc]
    rfl

theorem AllProper.exists_proper {observations : List Observation}
    (proper : AllProper text calls observations) {observation : Observation}
    (present : observation ∈ observations) : ∃ calls, observation.Proper text calls := by
  rcases List.append_of_mem present with ⟨front, back, rfl⟩
  exact ⟨_, (allProper_append.mp proper).2.1⟩

end Observation

end StackScript
