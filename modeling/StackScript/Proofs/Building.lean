import StackScript.Proofs.Action

/-!
# How the compiler is put together

All that the compiler does is put together from few actions. `Compile.Built` is the family of the
ways to do so, and there is such a way for every level of the grammar. Whatever these few actions
keep, the compiler keeps: that is one induction, with the grammar left out.

The grammar is a system of procedures. A procedure calls others either at the same level, and then
only those of a lower rank, or one level deeper.
-/

namespace StackScript

variable {constant : Constant} {holds : Function → Prop}

/-- Whether a property holds of a function and of all that stand in a pool somewhere below it. -/
inductive Function.Every (holds : Function → Prop) : Function → Prop where
  | mk {function : Function} (here : holds function)
      (inner : ∀ (place : Nat) (other : Function),
        function.chunk.constants[place]? = some (.function other) → Every holds other) :
      Every holds function

/-- Whether a constant is no function, or one with a property. -/
def Constant.Holds (holds : Function → Prop) : Constant → Prop
  | .function function => holds function
  | _ => True

theorem Constant.Holds.imp {holds' : Function → Prop} (held : constant.Holds holds)
    (imp : ∀ function, holds function → holds' function) : constant.Holds holds' := by
  cases constant with
  | function function => exact imp function held
  | _ => exact trivial

theorem Constant.Holds.of_plain (plain : ∀ function, constant ≠ .function function) :
    constant.Holds holds := by
  cases constant with
  | function function => exact absurd rfl (plain function)
  | _ => exact trivial

namespace Compile

/-- What is known where an action starts. -/
structure Known where
  jumps : List Nat
  marks : List Nat
  last : Option Token.Kind
  before : Option Token.Kind

namespace Known

def nothing : Known :=
  ⟨[], [], none, none⟩

def moved (known : Known) : Known :=
  ⟨known.jumps, known.marks, none, none⟩

def read (known : Known) (kind : Token.Kind) : Known :=
  ⟨known.jumps, known.marks, some kind, none⟩

/-- What is known behind a name. -/
def named (known : Known) : Known :=
  ⟨known.jumps, known.marks, some .identifier, known.last⟩

def withJump (known : Known) (jump : Nat) : Known :=
  ⟨jump :: known.jumps, known.marks, none, none⟩

def withMark (known : Known) (mark : Nat) : Known :=
  ⟨known.jumps, mark :: known.marks, none, none⟩

end Known

/-- What an action may do to the locals and the scopes of the function that is being written. -/
inductive Mode where
  /-- It may open and close them. -/
  | free
  /-- They stay as they are. -/
  | settled
  /-- They stay as they are, and the innermost local may have no value yet. -/
  | pending
  /-- It may open and close them, and leave the innermost local without a value. -/
  | loose

namespace Mode

/-- Whether all locals have values. -/
def closes : Mode → Bool
  | free | settled => true
  | pending | loose => false

/-- Whether locals and scopes stay. -/
def keeps : Mode → Bool
  | settled | pending => true
  | free | loose => false

end Mode

end Compile

/-- The procedures of the compiler that call each other. -/
inductive Procedure where
  | program
  | declaration
  | variableDeclaration
  | functionDeclaration
  | function
  | functionBody
  | block
  | statement
  | dispatch
  | expressionStatement
  | printStatement
  | returnStatement
  | conditional (opening : Expectation)
  | whileStatement
  | forStatement
  | expression
  | operand (precedence : Precedence)
  | climb (precedence : Precedence)
  | leading (assignable : Bool) (form : Leading)
  | trailing (form : Trailing)
deriving DecidableEq

namespace Procedure

variable {caller inner : Procedure}

/-- How far a procedure is from those that only go deeper. -/
def rank : Procedure → Nat
  | statement | function | operand _ => 0
  | expression | functionDeclaration => 1
  | variableDeclaration | expressionStatement | printStatement | returnStatement | conditional _
  | whileStatement | leading _ _ | trailing _ => 2
  | declaration | forStatement | climb _ => 3
  | program | block => 4
  | functionBody | dispatch => 5

/-- Whether a procedure may be called by another one at the same level. -/
def isBelow (inner caller : Procedure) : Bool :=
  inner.rank < caller.rank

/-- Whether it reads parts of an expression. -/
def isPart : Procedure → Bool
  | expression | operand _ | climb _ | leading _ _ | trailing _ => true
  | _ => false

/-- Whether a call is one that may be made while a local has no value yet. -/
def MayCall (caller inner : Procedure) (mode : Compile.Mode) : Prop :=
  mode.closes = false →
    inner.isPart = true ∧ (caller = .variableDeclaration ∨ caller.isPart = true)

theorem MayCall.free : caller.MayCall inner .free :=
  nofun

theorem MayCall.inside {mode : Compile.Mode} (whole : caller.isPart = true)
    (part : inner.isPart = true) : caller.MayCall inner mode :=
  fun _ => ⟨part, .inr whole⟩

/-- What has to be known where a procedure is called. -/
def Fits (known : Compile.Known) : Procedure → Prop
  | leading _ form => ∃ kind, known.last = some kind ∧ kind.leading? = some form
  | trailing form => ∃ kind, known.last = some kind ∧ kind.trailing? = some form
  | operand precedence => Precedence.assignment ≤ precedence ∧ precedence ≤ .unary
  | _ => True

/-- The action of a procedure at some level. -/
def action (levels : Nat) : Procedure → Compile Unit
  | program =>
    Compile.repeatWhile (return !(← Compile.accept .endOfText))
      (Compile.declaration (.level levels))
  | declaration => Compile.declaration (.level levels)
  | variableDeclaration => Compile.variableDeclaration (.level levels)
  | functionDeclaration => Compile.functionDeclaration (.level levels)
  | function => (Parser.level levels).functionBody
  | functionBody => Compile.functionBody (.level levels)
  | block => Compile.block (.level levels)
  | statement => (Parser.level levels).statement
  | dispatch => Compile.statement (.level levels)
  | expressionStatement => Compile.expressionStatement (.level levels)
  | printStatement => Compile.printStatement (.level levels)
  | returnStatement => Compile.returnStatement (.level levels)
  | conditional opening => Compile.conditional (.level levels) opening
  | whileStatement => Compile.whileStatement (.level levels)
  | forStatement => Compile.forStatement (.level levels)
  | expression => (Parser.level levels).expression
  | operand precedence => (Parser.level levels).operand precedence
  | climb precedence => Compile.climb (.level levels) precedence
  | leading assignable form => Compile.leading (.level levels) assignable form
  | trailing form => Compile.trailing (.level levels) form

end Procedure

namespace Compile

variable {after compiler : Compiler}

/-- The reasons for which the grammar itself refuses the token that was read last. -/
def refusals : List CompileError.Kind :=
  [.expectExpression, .invalidAssignmentTarget, .tooManyArguments]

/-- The opcodes of jumps whose distance is filled in later. -/
def forwardJumps : List Opcode :=
  [.jump, .jumpIfFalse]

theorem wide_of_forward {opcode : Opcode} (forward : opcode ∈ forwardJumps) :
    opcode.operandSize = 2 := by
  simp only [forwardJumps, List.mem_cons, List.not_mem_nil, or_false] at forward
  rcases forward with rfl | rfl <;> rfl

/-- Whether a loop goes on only in front of a token, and asks without reading it. -/
def StaysInText (more : Compile Bool) : Prop :=
  ∀ compiler asked : Compiler, more compiler = .ok true asked →
    asked = compiler ∧ compiler.current.kind ≠ .endOfText

def parametersAndBody (inner : Parser) : Compile Unit := do
  parameters
  expect .leftBrace .braceBeforeBody
  block inner

/--
How an action of a procedure, at some level of the grammar, is put together from those that the
compiler is made of.
-/
inductive Built : Procedure → Nat → Known → Mode → {α : Type} → Compile α → Type 1 where
  | pure {α : Type} {caller levels known mode} (value : α) :
      Built caller levels known mode (pure value)
  | bind {α β : Type} {caller levels known mode} {action : Compile α} {next : α → Compile β}
      (first : Built caller levels known mode action)
      (second : ∀ value, Built caller levels known.moved mode (next value)) :
      Built caller levels known mode (action >>= next)
  | recast {α : Type} {caller levels known mode} {action other : Compile α} (same : other = action)
      (built : Built caller levels known mode action) : Built caller levels known mode other
  -- Reading
  | refuse {α : Type} {caller levels known mode} {kind : CompileError.Kind}
      (listed : kind ∈ refusals) : Built caller levels known mode (fail kind : Compile α)
  | miss {α : Type} {caller levels known mode} (expectation : Expectation) :
      Built caller levels known mode (failAhead (.expected expectation) : Compile α)
  | tooDeep {α : Type} {caller levels known mode} :
      Built caller levels known mode (failAhead .tooDeeplyNested : Compile α)
  | lookahead {caller levels known mode} : Built caller levels known mode lookahead
  | advance {caller levels known mode} : Built caller levels known mode advance
  | read {α : Type} {caller levels known mode} {next : Token.Kind → Compile α}
      (rest : ∀ kind, Built caller levels (known.read kind) mode (next kind)) :
      Built caller levels known mode (do
        let kind ← Compile.lookahead
        Compile.advance
        next kind)
  -- Calls
  | call {caller levels known mode} (inner : Procedure) (lower : inner.isBelow caller = true)
      (may : caller.MayCall inner mode) (fits : inner.Fits known)
      (body : Built inner levels known mode (inner.action levels)) :
      Built caller levels known mode (inner.action levels)
  | enter {caller levels known mode} (inner : Procedure) (may : caller.MayCall inner mode)
      (fits : inner.Fits known) (body : Built inner levels known mode (inner.action levels)) :
      Built caller (levels + 1) known mode (nested (inner.action levels))
  | repeatReading {caller levels known mode} {more : Compile Bool}
      {next : Token.Kind → Compile Unit} (stays : StaysInText more)
      (asks : Built caller levels known.moved mode more)
      (does : ∀ kind, Built caller levels (known.read kind) mode (next kind)) :
      Built caller levels known mode (repeatWhile more (do
        let kind ← Compile.lookahead
        Compile.advance
        next kind))
  | repeatDeclaring {caller levels known} {more : Compile Bool} (stays : StaysInText more)
      (asks : Built caller levels known.moved .free more)
      (does : Built caller levels known.moved .free (declaration (.level levels))) :
      Built caller levels known .free (repeatWhile more (declaration (.level levels)))
  | separated {α : Type} {caller levels known mode} {item : α → Compile α}
      (each : ∀ state, Built caller levels known.moved mode (item state)) (state : α) :
      Built caller levels known mode (separated item state)
  -- Writing
  | emit {caller levels known mode} {opcode : Opcode} (bare : opcode.operandSize = 0) :
      Built caller levels known mode (emit opcode)
  | apply {caller levels known mode} (count : Nat) :
      Built caller levels known mode (emitWith .call (UInt8.ofNat count))
  | jump {α : Type} {caller levels known mode} {opcode : Opcode} {next : Nat → Compile α}
      (forward : opcode ∈ forwardJumps)
      (rest : ∀ jump, Built caller levels (known.withJump jump) mode (next jump)) :
      Built caller levels known mode (emitJump opcode >>= next)
  | patch {caller levels known mode} {jump : Nat} (written : jump ∈ known.jumps) :
      Built caller levels known mode (patchJump jump)
  | mark {α : Type} {caller levels known mode} {next : Nat → Compile α}
      (rest : ∀ size, Built caller levels (known.withMark size) mode (next size)) :
      Built caller levels known mode (codeSize >>= next)
  | loop {caller levels known mode} {start : Nat} (marked : start ∈ known.marks) :
      Built caller levels known mode (emitLoop start)
  | number {caller levels known mode} (last : known.last = some .number) :
      Built caller levels known mode number
  | string {caller levels known mode} (last : known.last = some .string) :
      Built caller levels known mode string
  -- Scopes and variables
  | scope {caller levels known} {body : Compile Unit} (kind : ScopeKind)
      (inside : Built caller levels known.moved .free body) :
      Built caller levels known .free (do
        openScope kind
        body
        closeScope)
  | loopStart {caller levels known} {start : Nat} (marked : start ∈ known.marks) :
      Built caller levels known .free (modify (·.onDraft fun draft =>
        { draft with scopes := Scope.setLoopStart start draft.scopes }))
  | leave {caller levels known} : Built caller levels known .free breakStatement
  | again {caller levels known mode} : Built caller levels known mode continueStatement
  | use {caller levels known mode} {inner : Parser} (last : known.last = some .identifier)
      (value : Built caller levels known.moved mode inner.expression) (assignable : Bool) :
      Built caller levels known mode (variableUse inner assignable)
  | declaring {caller levels known} {body : Compile Unit} (whole : caller.isPart = false)
      (expectation : Expectation) (inside : Built caller levels known.moved .pending body) :
      Built caller levels known .free (do
        let binding ← declare expectation
        body
        define binding)
  | declaringVisibly {caller levels known} {body : Compile Unit} (expectation : Expectation)
      (inside : Built caller levels known.named .settled body) :
      Built caller levels known .free (do
        let binding ← declare expectation
        makeVisible binding
        body
        define binding)
  -- Functions
  | function {caller levels known} (last : known.last = some .identifier)
      (before : known.before = some (.keyword .funKw))
      (inside : Built caller levels .nothing .free (parametersAndBody (.level levels))) :
      Built caller levels known .settled (do
        beginFunction
        parametersAndBody (.level levels)
        emitReturn
        emitConstant (.function (← endFunction)))
  | count {caller levels known} {next : Compile Unit}
      (rest : Built caller levels known .free next) :
      Built caller levels known .free (do
        if (← get).draft.arity = maxArguments then
          failAhead .tooManyParameters
        else
          modify (·.onDraft fun draft => { draft with arity := draft.arity + 1 })
          next)
  | inFunction {caller levels known mode} {next : Compile Unit}
      (rest : Built caller levels known mode next) :
      Built caller levels known mode (do
        match (← get).draft.kind with
        | .script => fail .returnOutsideFunction
        | .function => next)

/-! ## What was read last -/

theorem previous_of_advance (ran : advance compiler = .ok () after) :
    after.previous = compiler.current := by
  rw [advance_eq_ok ran, Compiler.shift]
  split <;> rfl

theorem previous_of_expect {kind : Token.Kind} {expectation : Expectation}
    (ran : expect kind expectation compiler = .ok () after) : after.previous.kind = kind := by
  rcases bind_eq_ok.mp ran with ⟨found, middle, looked, ran⟩
  rcases lookahead_eq_ok.mp looked with ⟨rfl, rfl⟩
  split at ran
  · next same => rw [previous_of_advance ran, same]
  · exact absurd ran failAhead_ne_ok

/-! ## Parts of the grammar between two ends -/

/-- The first value of a variable. -/
def initializer (inner : Parser) : Compile Unit := do
  (if ← accept .equal then inner.expression else emit .loadNil)
  expect .semicolon .semicolonAfterVariable

theorem variableDeclaration_eq (inner : Parser) :
    variableDeclaration inner = (do
      let binding ← declare .variableName
      initializer inner
      define binding) := by
  simp only [variableDeclaration, initializer, bind_assoc]
  congr 1
  funext binding
  congr 1
  funext given
  cases given <;> rfl

theorem declaration_eq (inner : Parser) :
    declaration inner = (do
      match ← lookahead with
      | .keyword .funKw =>
        let again ← lookahead
        advance
        if again = .keyword .funKw then functionDeclaration inner else pure ()
      | .keyword .varKw =>
        advance
        variableDeclaration inner
      | _ => inner.statement) := by
  funext compiler
  rw [declaration, bind_of_ok (show lookahead compiler = .ok _ compiler from rfl),
    bind_of_ok (show lookahead compiler = .ok _ compiler from rfl)]
  cases found : compiler.current.kind with
  | keyword word =>
    cases word with
    | funKw =>
      change _ = (lookahead >>= _) compiler
      rw [bind_of_ok (show lookahead compiler = .ok _ compiler from rfl), found]
      simp only [if_true]
    | _ => rfl
  | _ => rfl

def whileBody (inner : Parser) : Compile Unit := do
  let start ← codeSize
  expect .leftParen .parenAfterWhile
  inner.expression
  expect .rightParen .parenAfterCondition
  let exit ← emitJump .jumpIfFalse
  emit .pop
  inner.statement
  emitLoop start
  patchJump exit
  emit .pop

theorem whileStatement_eq (inner : Parser) :
    whileStatement inner = (do
      openScope .loop
      whileBody inner
      closeScope) := by
  simp only [whileStatement, whileBody, bind_assoc]

def forBody (inner : Parser) : Compile Unit := do
  expect .leftParen .parenAfterFor
  forInitializer inner
  let start ← codeSize
  let exit ← forCondition inner
  let again ← forIncrement inner start
  modify (·.onDraft fun draft => { draft with scopes := Scope.setLoopStart again draft.scopes })
  inner.statement
  emitLoop again
  forExit exit

theorem forStatement_eq (inner : Parser) :
    forStatement inner = (do
      openScope .loop
      forBody inner
      closeScope) := by
  simp only [forStatement, forBody, bind_assoc]

theorem forCondition_bind {α : Type} (inner : Parser) (next : Option Nat → Compile α) :
    forCondition inner >>= next = (do
      if ← accept .semicolon then
        next none
      else
        inner.expression
        expect .semicolon .semicolonAfterLoopCondition
        let exit ← emitJump .jumpIfFalse
        emit .pop
        next (some exit)) := by
  rw [forCondition, bind_assoc]
  congr 1
  funext missing
  cases missing <;> simp

theorem forIncrement_bind {α : Type} (inner : Parser) (start : Nat) (next : Nat → Compile α) :
    forIncrement inner start >>= next = (do
      if ← accept .rightParen then
        next start
      else
        let body ← emitJump .jump
        let increment ← codeSize
        inner.expression
        emit .pop
        expect .rightParen .parenAfterForClauses
        emitLoop start
        patchJump body
        next increment) := by
  rw [forIncrement, bind_assoc]
  congr 1
  funext missing
  cases missing <;> simp

/-- A function up to its final return. -/
def functionText (inner : Parser) : Compile Unit := do
  beginFunction
  parametersAndBody inner
  emitReturn

theorem functionBody_eq (inner : Parser) :
    functionBody inner = (do
      beginFunction
      parametersAndBody inner
      emitReturn
      emitConstant (.function (← endFunction))) := by
  simp only [functionBody, parametersAndBody, bind_assoc]

end Compile

/-! ## Levels of the grammar -/

/-- How the actions of one level of the grammar are put together. -/
structure Parser.Built (levels : Nat) : Type 1 where
  statement : ∀ known, Compile.Built .statement levels known .free (Parser.level levels).statement
  alternative : ∀ caller known,
    Compile.Built caller levels known .free (Parser.level levels).alternative
  functionBody : ∀ known : Compile.Known, known.last = some .identifier →
    known.before = some (.keyword .funKw) →
    Compile.Built .function levels known .settled (Parser.level levels).functionBody
  operand : ∀ known mode precedence, .assignment ≤ precedence →
    Compile.Built (.operand precedence) levels known mode ((Parser.level levels).operand precedence)

namespace Compile.Built

variable {α β : Type} {caller : Procedure} {levels : Nat} {known : Known} {mode : Mode}

def accept (kind : Token.Kind) : Built caller levels known mode (accept kind) := by
  apply bind .lookahead
  intro found
  split
  · exact bind .advance fun _ => .pure true
  · exact .pure false

def expect (kind : Token.Kind) (expectation : Expectation) :
    Built caller levels known mode (expect kind expectation) := by
  apply bind .lookahead
  intro found
  split
  · exact .advance
  · exact .miss expectation

def emitReturn : Built caller levels known mode emitReturn :=
  bind (.emit rfl) fun _ => .emit rfl

def emitAll : {known : Known} → (opcodes : List Opcode) →
    (∀ opcode ∈ opcodes, opcode.operandSize = 0) →
    Built caller levels known mode (opcodes.forM Compile.emit)
  | _, [], _ => .pure ()
  | _, opcode :: rest, bare =>
    bind (.emit (bare opcode List.mem_cons_self)) fun _ =>
      emitAll rest fun other present => bare other (List.mem_cons_of_mem opcode present)

/-! ## Expressions -/

def operand (below : Parser.Built levels) {precedence : Precedence}
    (lower : (Procedure.operand precedence).isBelow caller = true) (part : caller.isPart = true)
    (loose : .assignment ≤ precedence) (tight : precedence ≤ .unary) :
    Built caller levels known mode ((Parser.level levels).operand precedence) :=
  .call (.operand precedence) lower (.inside part rfl) ⟨loose, tight⟩
    (below.operand known mode precedence loose)

def expression (below : Parser.Built levels) (lower : Procedure.expression.isBelow caller = true)
    (may : caller.MayCall .expression mode) :
    Built caller levels known mode (Parser.level levels).expression :=
  .call .expression lower may trivial (operand below rfl rfl (by decide) (by decide))

def argument (below : Parser.Built levels) (lower : Procedure.expression.isBelow caller = true)
    (may : caller.MayCall .expression mode) (count : Nat) :
    Built caller levels known mode (argument (.level levels) count) := by
  apply bind (expression below lower may)
  intro _
  split
  · exact .refuse (.tail _ (.tail _ (.head _)))
  · exact .pure _

def arguments (below : Parser.Built levels) (lower : Procedure.expression.isBelow caller = true)
    (may : caller.MayCall .expression mode) :
    Built caller levels known mode (arguments (.level levels)) := by
  have closes (count : Nat) : Built caller levels known.moved.moved mode (do
      Compile.expect .rightParen .parenAfterArguments
      return count) :=
    bind (expect _ _) fun _ => .pure count
  apply bind .lookahead
  intro kind
  dsimp only
  split
  · exact bind (.pure 0) closes
  · exact bind (.separated (argument below lower may) 0) closes

theorem kind_of_leading {kind : Token.Kind} {form : Leading} (leads : kind.leading? = some form) :
    (form = .number → kind = .number) ∧ (form = .string → kind = .string) ∧
      (form = .variable → kind = .identifier) := by
  unfold Token.Kind.leading? at leads
  refine ⟨?_, ?_, ?_⟩
  all_goals
    rintro rfl
    split at leads <;> simp_all

def leading {kind : Token.Kind} {assignable : Bool} {form : Leading} (below : Parser.Built levels)
    (leads : kind.leading? = some form) :
    Built (.leading assignable form) levels (known.read kind) mode
      (leading (.level levels) assignable form) := by
  have kinds := kind_of_leading leads
  cases form with
  | grouping => exact bind (expression below rfl (.inside rfl rfl)) fun _ => expect _ _
  | unary operator =>
    apply bind (operand below rfl rfl (by decide) (by decide))
    exact fun _ => .emit (by cases operator <;> rfl)
  | «variable» =>
    exact .use (congrArg some (kinds.2.2 rfl)) (expression below rfl (.inside rfl rfl)) assignable
  | string => exact .string (congrArg some (kinds.2.1 rfl))
  | number => exact .number (congrArg some (kinds.1 rfl))
  | literal value => exact .emit (by cases value <;> rfl)

def trailing (below : Parser.Built levels) (form : Trailing) :
    Built (.trailing form) levels known mode (trailing (.level levels) form) := by
  cases form with
  | call => exact bind (arguments below rfl (.inside rfl rfl)) fun count => .apply count
  | binary operator =>
    apply bind (operand below rfl rfl (by cases operator <;> decide) (by cases operator <;> decide))
    exact fun _ => emitAll _ (by cases operator <;> decide)
  | and =>
    apply Built.jump (.tail _ (.head _))
    intro decided
    apply bind (.emit rfl)
    intro _
    apply bind (operand below rfl rfl (by decide) (by decide))
    intro _
    exact .patch List.mem_cons_self
  | or =>
    apply Built.jump (.tail _ (.head _))
    intro undecided
    apply Built.jump (.head _)
    intro decided
    apply bind (.patch (List.mem_cons_of_mem _ List.mem_cons_self))
    intro _
    apply bind (.emit rfl)
    intro _
    apply bind (operand below rfl rfl (by decide) (by decide))
    intro _
    exact .patch List.mem_cons_self

theorem staysInText_continues {precedence : Precedence} (loose : .assignment ≤ precedence) :
    StaysInText (continues precedence) := by
  intro compiler asked ran
  rcases bind_eq_ok.mp ran with ⟨_, _, ranLook, ranPure⟩
  rcases lookahead_eq_ok.mp ranLook with ⟨rfl, rfl⟩
  rcases pure_eq_ok.mp ranPure with ⟨tight, rfl⟩
  refine ⟨rfl, ?_⟩
  intro atEnd
  rw [atEnd] at tight
  exact absurd (Nat.le_trans loose (of_decide_eq_true tight)) (by decide)

def continuation (below : Parser.Built levels) {precedence : Precedence} (kind : Token.Kind) :
    Built (.climb precedence) levels (known.read kind) mode
      (match kind.trailing? with
        | some form => Compile.trailing (.level levels) form
        | none => Pure.pure ()) := by
  split
  · next form continues =>
    exact .call (.trailing form) rfl (.inside rfl rfl) ⟨kind, rfl, continues⟩ (trailing below form)
  · exact .pure ()

def climb (below : Parser.Built levels) {precedence : Precedence}
    (loose : .assignment ≤ precedence) :
    Built (.climb precedence) levels known mode (climb (.level levels) precedence) := by
  apply Built.read
  intro kind
  split
  · exact .refuse (.head _)
  · next form leads =>
    apply bind
      (.call (.leading _ form) rfl (.inside rfl rfl) ⟨kind, rfl, leads⟩ (leading below leads))
    intro _
    apply bind (.repeatReading (staysInText_continues loose) (bind .lookahead fun _ => .pure _)
      (continuation below))
    intro _
    apply bind .lookahead
    intro kind
    split
    · exact bind .advance fun _ => .refuse (.tail _ (.head _))
    · exact .pure ()

/-! ## Statements -/

def statement (below : Parser.Built levels) (lower : Procedure.statement.isBelow caller = true) :
    Built caller levels known .free (Parser.level levels).statement :=
  .call .statement lower .free trivial (below.statement known)

def expressionStatement (below : Parser.Built levels) :
    Built .expressionStatement levels known .free (expressionStatement (.level levels)) := by
  apply bind (expression below rfl .free)
  intro _
  exact bind (expect _ _) fun _ => .emit rfl

def printStatement (below : Parser.Built levels) :
    Built .printStatement levels known .free (printStatement (.level levels)) := by
  apply bind (expression below rfl .free)
  intro _
  exact bind (expect _ _) fun _ => .emit rfl

def initializer (below : Parser.Built levels) :
    Built .variableDeclaration levels known .pending (initializer (.level levels)) := by
  apply bind (accept _)
  intro given
  refine bind ?_ fun _ => expect _ _
  split
  · exact expression below rfl fun _ => ⟨rfl, .inl rfl⟩
  · exact .emit rfl

def variableDeclaration (below : Parser.Built levels) :
    Built .variableDeclaration levels known .free (variableDeclaration (.level levels)) :=
  .recast (variableDeclaration_eq _) (.declaring rfl _ (initializer below))

def functionDeclaration (below : Parser.Built levels)
    (last : known.last = some (.keyword .funKw)) :
    Built .functionDeclaration levels known .free (functionDeclaration (.level levels)) :=
  .declaringVisibly _ (.call .function rfl nofun trivial (below.functionBody _ rfl last))

def declaration (below : Parser.Built levels) :
    Built .declaration levels known .free (declaration (.level levels)) := by
  apply recast (declaration_eq _)
  apply bind .lookahead
  intro kind
  split
  · apply read
    intro again
    split
    · next isFunction =>
      exact .call .functionDeclaration rfl .free trivial (functionDeclaration below (by
        rw [isFunction]
        rfl))
    · exact .pure ()
  · exact bind .advance fun _ =>
      .call .variableDeclaration rfl .free trivial (variableDeclaration below)
  · exact statement below rfl

theorem staysInText_blockContinues :
    StaysInText (do
      let kind ← Compile.lookahead
      return kind ≠ .rightBrace && kind ≠ .endOfText) := by
  intro compiler asked ran
  rcases bind_eq_ok.mp ran with ⟨_, _, ranLook, ranPure⟩
  rcases lookahead_eq_ok.mp ranLook with ⟨rfl, rfl⟩
  rcases pure_eq_ok.mp ranPure with ⟨more, rfl⟩
  exact ⟨rfl, of_decide_eq_true (Bool.and_eq_true_iff.mp more).2⟩

def block (below : Parser.Built levels) :
    Built .block levels known .free (block (.level levels)) := by
  apply bind (.repeatDeclaring staysInText_blockContinues (bind .lookahead fun _ => .pure _)
    (.call .declaration rfl .free trivial (declaration below)))
  intro _
  exact expect _ _

def otherBranches {opening : Expectation} (below : Parser.Built levels) :
    Built (.conditional opening) levels known .free (otherBranches (.level levels)) := by
  apply bind .lookahead
  intro kind
  split
  · exact bind .advance fun _ => below.alternative _ _
  · exact bind .advance fun _ => statement below rfl
  · exact .pure ()

def conditional (below : Parser.Built levels) (opening : Expectation) :
    Built (.conditional opening) levels known .free (conditional (.level levels) opening) := by
  apply bind (expect _ _)
  intro _
  apply bind (expression below rfl .free)
  intro _
  apply bind (expect _ _)
  intro _
  apply Built.jump (.tail _ (.head _))
  intro unmet
  apply bind (.emit rfl)
  intro _
  apply bind (statement below rfl)
  intro _
  apply Built.jump (.head _)
  intro done
  apply bind (.patch (List.mem_cons_of_mem _ List.mem_cons_self))
  intro _
  apply bind (.emit rfl)
  intro _
  apply bind (otherBranches below)
  intro _
  exact .patch List.mem_cons_self

def whileBody (below : Parser.Built levels) :
    Built .whileStatement levels known .free (whileBody (.level levels)) := by
  apply Built.mark
  intro start
  apply bind (expect _ _)
  intro _
  apply bind (expression below rfl .free)
  intro _
  apply bind (expect _ _)
  intro _
  apply Built.jump (.tail _ (.head _))
  intro exit
  apply bind (.emit rfl)
  intro _
  apply bind (statement below rfl)
  intro _
  apply bind (.loop List.mem_cons_self)
  intro _
  apply bind (.patch List.mem_cons_self)
  intro _
  exact .emit rfl

def whileStatement (below : Parser.Built levels) :
    Built .whileStatement levels known .free (whileStatement (.level levels)) :=
  .recast (whileStatement_eq _) (.scope _ (whileBody below))

def forInitializer (below : Parser.Built levels) :
    Built .forStatement levels known .free (forInitializer (.level levels)) := by
  apply bind .lookahead
  intro kind
  split
  · exact .advance
  · exact bind .advance fun _ =>
      .call .variableDeclaration rfl .free trivial (variableDeclaration below)
  · exact .call .expressionStatement rfl .free trivial (expressionStatement below)

/-- The jump out of a counting loop is known to what follows its condition. -/
def afterCondition {next : Option Nat → Compile α} (below : Parser.Built levels)
    (rest : ∀ exit known', known'.marks = known.marks → (∀ jump ∈ exit, jump ∈ known'.jumps) →
      Built .forStatement levels known' .free (next exit)) :
    Built .forStatement levels known .free (forCondition (.level levels) >>= next) := by
  apply recast (forCondition_bind _ _)
  apply bind (accept _)
  intro missing
  split
  · exact rest none _ rfl nofun
  · apply bind (expression below rfl .free)
    intro _
    apply bind (expect _ _)
    intro _
    apply Built.jump (.tail _ (.head _))
    intro exit
    apply bind (.emit rfl)
    intro _
    refine rest (some exit) _ rfl ?_
    rintro _ ⟨⟩
    exact List.mem_cons_self

/-- Where the body of a counting loop jumps back to is known to what follows its increment. -/
def afterIncrement {next : Nat → Compile α} {start : Nat} (below : Parser.Built levels)
    (marked : start ∈ known.marks)
    (rest : ∀ again known', (∀ jump ∈ known.jumps, jump ∈ known'.jumps) → again ∈ known'.marks →
      Built .forStatement levels known' .free (next again)) :
    Built .forStatement levels known .free (forIncrement (.level levels) start >>= next) := by
  apply recast (forIncrement_bind _ _ _)
  apply bind (accept _)
  intro missing
  split
  · exact rest start _ (fun _ present => present) marked
  · apply Built.jump (.head _)
    intro body
    apply Built.mark
    intro increment
    apply bind (expression below rfl .free)
    intro _
    apply bind (.emit rfl)
    intro _
    apply bind (expect _ _)
    intro _
    apply bind (.loop (List.mem_cons_of_mem _ marked))
    intro _
    apply bind (.patch List.mem_cons_self)
    intro _
    exact rest increment _ (fun _ present => List.mem_cons_of_mem _ present) List.mem_cons_self

def forExit {exit : Option Nat} (written : ∀ jump ∈ exit, jump ∈ known.jumps) :
    Built caller levels known mode (forExit exit) := by
  cases exit with
  | none => exact .pure ()
  | some jump => exact bind (.patch (written jump rfl)) fun _ => .emit rfl

def forBody (below : Parser.Built levels) :
    Built .forStatement levels known .free (forBody (.level levels)) := by
  apply bind (expect _ _)
  intro _
  apply bind (forInitializer below)
  intro _
  apply Built.mark
  intro start
  apply afterCondition below
  intro exit tested marksEq written
  apply afterIncrement below (by rw [marksEq]; exact List.mem_cons_self)
  intro again advanced stillKnown marked
  apply bind (.loopStart marked)
  intro _
  apply bind (statement below rfl)
  intro _
  refine bind (.loop marked) ?_
  intro _
  exact forExit fun jump left => stillKnown jump (written jump left)

def forStatement (below : Parser.Built levels) :
    Built .forStatement levels known .free (forStatement (.level levels)) :=
  .recast (forStatement_eq _) (.scope _ (forBody below))

def returnStatement (below : Parser.Built levels) :
    Built .returnStatement levels known .free (returnStatement (.level levels)) := by
  apply Built.inFunction
  apply bind (accept _)
  intro bare
  split
  · exact emitReturn
  · apply bind (expression below rfl .free)
    intro _
    exact bind (expect _ _) fun _ => .emit rfl

def dispatch (below : Parser.Built levels) :
    Built .dispatch levels known .free (Compile.statement (.level levels)) := by
  apply bind .lookahead
  intro kind
  split
  · exact bind .advance fun _ => .call .printStatement rfl .free trivial (printStatement below)
  · exact bind .advance fun _ =>
      .call (.conditional _) rfl .free trivial (conditional below _)
  · exact bind .advance fun _ => .call .whileStatement rfl .free trivial (whileStatement below)
  · exact bind .advance fun _ => .call .forStatement rfl .free trivial (forStatement below)
  · exact bind .advance fun _ => .leave
  · exact bind .advance fun _ => .again
  · exact bind .advance fun _ => .call .returnStatement rfl .free trivial (returnStatement below)
  · exact bind .advance fun _ => .scope _ (.call .block rfl .free trivial (block below))
  · exact .call .expressionStatement rfl .free trivial (expressionStatement below)

/-! ## Functions and programs -/

def parameter (state : Unit) : Built .functionBody levels known .free (parameter state) := by
  apply Built.count
  exact .declaring rfl _ (.pure ())

def parameters : Built .functionBody levels known .free parameters := by
  apply bind (expect _ _)
  intro _
  apply bind .lookahead
  intro kind
  dsimp only
  split
  · exact bind (.separated parameter ()) fun _ => expect _ _
  · exact expect _ _

def functionBody (below : Parser.Built levels) (last : known.last = some .identifier)
    (before : known.before = some (.keyword .funKw)) :
    Built .functionBody levels known .settled (functionBody (.level levels)) := by
  apply recast (functionBody_eq _)
  apply Built.function last before
  apply bind parameters
  intro _
  exact bind (expect _ _) fun _ => .call .block rfl .free trivial (block below)

end Compile.Built

/-- How every level is put together. -/
def Parser.built : (levels : Nat) → Parser.Built levels
  | 0 => ⟨fun _ => .tooDeep, fun _ _ => .tooDeep, fun _ _ _ => .tooDeep, fun _ _ _ _ => .tooDeep⟩
  | levels + 1 =>
    ⟨fun _ => .enter .dispatch .free trivial (.dispatch (built levels)),
      fun _ _ => .enter (.conditional _) .free trivial (.conditional (built levels) _),
      fun _ last before =>
        .enter .functionBody nofun trivial (.functionBody (built levels) last before),
      fun _ _ _ loose => .enter (.climb _) (.inside rfl rfl) trivial (.climb (built levels) loose)⟩

theorem Compile.staysInText_programContinues : StaysInText (return !(← accept .endOfText)) := by
  intro compiler asked ran
  rcases bind_eq_ok.mp ran with ⟨accepted, _, ranAccept, ranPure⟩
  rcases pure_eq_ok.mp ranPure with ⟨negated, rfl⟩
  rcases bind_eq_ok.mp ranAccept with ⟨_, _, ranLook, ranAccept⟩
  rcases lookahead_eq_ok.mp ranLook with ⟨rfl, rfl⟩
  split at ranAccept
  · rcases bind_eq_ok.mp ranAccept with ⟨_, _, _, ranTrue⟩
    rcases pure_eq_ok.mp ranTrue with ⟨rfl, _⟩
    cases negated
  · next more => exact ⟨(pure_eq_ok.mp ranAccept).2.symm, more⟩

/-- How a program is put together. -/
def Compile.Built.program {levels : Nat} {known : Known} :
    Built .program levels known .free (Procedure.program.action levels) :=
  .repeatDeclaring staysInText_programContinues (bind (accept _) fun _ => .pure _)
    (.call .declaration rfl .free trivial (declaration (Parser.built levels)))

/-- A program up to its final return. -/
def Compile.wholeText : Compile Unit := do
  advance
  Procedure.program.action (maxNesting + 1)

theorem Compile.program_eq : program = wholeText >>= fun _ => finish := by
  simp only [program, wholeText, Procedure.action, Parser.top, bind_assoc]

theorem Compile.back?_of_emitReturn {done returned : Compiler}
    (ran : emitReturn done = .ok () returned) :
    returned.draft.chunk.lines.back? = some returned.previous.line := by
  cases ran
  exact Array.back?_push

theorem Compile.exists_wholeText {text : String} {script : Function}
    (compiled : compile text = .ok script) :
    ∃ done returned, wholeText (.ofText text) = .ok () done ∧
      emitReturn done = .ok () returned ∧ script = returned.draft.function := by
  rw [compile, compileTokens, program_eq, bind_apply] at compiled
  cases ran : wholeText (.ofTokens (tokens text)) with
  | ok _ done =>
    rw [ran] at compiled
    cases compiled
    exact ⟨done, _, ran, rfl, rfl⟩
  | error error after =>
    rw [ran] at compiled
    cases compiled

/-- How a whole text is put together. -/
def Compile.wholeText_built (known : Known) :
    Built .program (maxNesting + 1) known .free wholeText :=
  .bind .advance fun _ => .program

end StackScript
