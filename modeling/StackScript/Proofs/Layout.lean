import StackScript.Draft
import StackScript.Proofs.Encoding
import StackScript.Proofs.Tree

/-!
# Trees in code

Where the code of a tree stands in a finished chunk, said without the compiler. The code of a
statement depends on its layout: the names that are bound to slots, whether a declaration there is
global, how many functions were declared before it, and the loop around it. The relation also lists
the offsets between statements, with the number of slots in use there.
-/

namespace StackScript

namespace Instruction

/-- The place in the pool where the name of a global variable stands. -/
def globalPlace? : Instruction → Option Nat
  | defineGlobal place | getGlobal place | setGlobal place => some place
  | _ => none

/-- The place in the pool of the constant that is loaded. -/
def loadedPlace? : Instruction → Option Nat
  | constant place => some place
  | _ => none

end Instruction

namespace Chunk

/-- Whether an instruction stands there. -/
def Has (chunk : Chunk Constant) (offset : Nat) (instruction : Instruction) : Prop :=
  Instruction.decode chunk.code offset = .found instruction

/-- The instruction at an offset. -/
def instructionAt? (chunk : Chunk Constant) (offset : Nat) : Option Instruction :=
  match Instruction.decode chunk.code offset with
  | .found instruction => some instruction
  | _ => none

theorem Has.instructionAt?_eq {chunk : Chunk Constant} {offset : Nat} {instruction : Instruction}
    (found : chunk.Has offset instruction) : chunk.instructionAt? offset = some instruction := by
  have reads : Instruction.decode chunk.code offset = .found instruction := found
  rw [instructionAt?, reads]

/-- The instructions of a chunk in the order of its code. -/
def instructions (chunk : Chunk Constant) : List Instruction :=
  chunk.starts.toList.filterMap chunk.instructionAt?

/-- The names that are accessed, by place. -/
def globalPlaces (chunk : Chunk Constant) : List Nat :=
  chunk.instructions.filterMap Instruction.globalPlace?

/-- The constants that are loaded, by place. -/
def loadedPlaces (chunk : Chunk Constant) : List Nat :=
  chunk.instructions.filterMap Instruction.loadedPlace?

/-- Whether operations without operands stand in a row. -/
def HasAll (chunk : Chunk Constant) : List Opcode → Nat → Nat → Prop
  | [], start, stop => stop = start
  | opcode :: rest, start, stop =>
    chunk.Has start (opcode.instruction 0) ∧ chunk.HasAll rest (start + 1) stop

/-- Whether a jump to `target` stands there. -/
def Jumps (chunk : Chunk Constant) (opcode : Opcode) (offset target : Nat) : Prop :=
  offset + 3 ≤ target ∧ chunk.Has offset (opcode.instruction (target - (offset + 3)))

/-- Whether a jump back stands there. -/
def LoopsTo (chunk : Chunk Constant) (offset target : Nat) : Prop :=
  target ≤ offset + 3 ∧ chunk.Has offset (.loop (offset + 3 - target))

/-- Whether the pool has a name there. -/
def Names (chunk : Chunk Constant) (place : Nat) (name : String) : Prop :=
  chunk.constants[place]? = some (.string name)

/-- The number of functions in the pool before a place. -/
def rank (chunk : Chunk Constant) (place : Nat) : Nat :=
  (chunk.constants.toList.take place).countP (·.function?.isSome)

end Chunk

/-- The slot of the innermost local of a name, in a list with the innermost first. -/
def slotOf? (name : String) : List String → Option Nat
  | [] => none
  | entry :: outer => if entry = name then some outer.length else slotOf? name outer

/-- Whether an access stands there. -/
def Chunk.Accesses (chunk : Chunk Constant) (names : List String) (name : String)
    (toSlot toGlobal : Nat → Instruction) (offset : Nat) : Prop :=
  (∃ slot, slotOf? name names = some slot ∧ chunk.Has offset (toSlot slot)) ∨
    (slotOf? name names = none ∧ ∃ place, chunk.Has offset (toGlobal place) ∧
      chunk.Names place name)

mutual

/-- Whether the code of an expression stands between two offsets. -/
def Expression.CodeAt (chunk : Chunk Constant) (names : List String) :
    Expression → Nat → Nat → Prop
  | .number value, start, stop =>
    ∃ place, chunk.Has start (.constant place) ∧
      chunk.constants[place]? = some (.number value) ∧ stop = start + 2
  | .string text, start, stop =>
    ∃ place, chunk.Has start (.constant place) ∧
      chunk.constants[place]? = some (.string text) ∧ stop = start + 2
  | .literal value, start, stop =>
    chunk.Has start (value.opcode.instruction 0) ∧ stop = start + 1
  | .reference name, start, stop =>
    chunk.Accesses names name .getLocal .getGlobal start ∧ stop = start + 2
  | .assign name value, start, stop =>
    ∃ valued, value.CodeAt chunk names start valued ∧
      chunk.Accesses names name .setLocal .setGlobal valued ∧ stop = valued + 2
  | .unary operator operand, start, stop =>
    ∃ operated, operand.CodeAt chunk names start operated ∧
      chunk.Has operated (operator.opcode.instruction 0) ∧ stop = operated + 1
  | .binary operator left right, start, stop =>
    ∃ first second, left.CodeAt chunk names start first ∧
      right.CodeAt chunk names first second ∧ chunk.HasAll operator.opcodes second stop
  | .and left right, start, stop =>
    ∃ first, left.CodeAt chunk names start first ∧ chunk.Jumps .jumpIfFalse first stop ∧
      chunk.Has (first + 3) .pop ∧ right.CodeAt chunk names (first + 4) stop
  | .or left right, start, stop =>
    ∃ first, left.CodeAt chunk names start first ∧
      chunk.Jumps .jumpIfFalse first (first + 6) ∧ chunk.Jumps .jump (first + 3) stop ∧
      chunk.Has (first + 6) .pop ∧ right.CodeAt chunk names (first + 7) stop
  | .call callee arguments, start, stop =>
    ∃ called given, callee.CodeAt chunk names start called ∧
      Expression.AllCodeAt chunk names arguments called given ∧
      chunk.Has given (.call arguments.length) ∧ stop = given + 2

def Expression.AllCodeAt (chunk : Chunk Constant) (names : List String) :
    List Expression → Nat → Nat → Prop
  | [], start, stop => stop = start
  | first :: rest, start, stop =>
    ∃ middle, first.CodeAt chunk names start middle ∧
      Expression.AllCodeAt chunk names rest middle stop

end

/-- Where the jumps of a loop lead, and how many slots are in use at both places. -/
structure LoopPlace where
  height : Nat
  start : Nat
  exit : Nat

/-- What the code of a statement depends on. -/
structure Layout where
  names : List String
  isOutermost : Bool
  functions : Nat
  loop : Option LoopPlace
  kind : DraftKind

namespace Layout

/-- The layout of a program. -/
def script : Layout :=
  ⟨[""], true, 0, none, .script⟩

/-- The layout of a body. -/
def function (name : String) (parameters : List String) : Layout :=
  ⟨parameters.reverse ++ [name], false, 0, none, .function⟩

/-- The layout inside of a scope. -/
def inScope (layout : Layout) : Layout :=
  { layout with isOutermost := false }

/-- The layout inside of a loop. -/
def inLoop (layout : Layout) (start exit : Nat) : Layout :=
  { layout with isOutermost := false, loop := some ⟨layout.names.length, start, exit⟩ }

/-- The names that a statement binds to slots, the one of the highest slot first. -/
def binds (layout : Layout) (statement : Statement) : List String :=
  if layout.isOutermost then [] else statement.declared

/-- The layout behind a statement. -/
def after (layout : Layout) (statement : Statement) : Layout :=
  { layout with
    names := layout.binds statement ++ layout.names
    functions := layout.functions + statement.functionCount }

/-- The two ends of a statement, with the number of slots in use there. -/
def ends (layout : Layout) (statement : Statement) (start stop : Nat) : List (Nat × Nat) :=
  [(start, layout.names.length), (stop, (layout.after statement).names.length)]

end Layout

namespace Statement

variable (chunk : Chunk Constant)

/-- Where a first value stands. -/
def InitialAt (names : List String) : Option Expression → Nat → Nat → Prop
  | some value, start, stop => value.CodeAt chunk names start stop
  | none, start, stop => chunk.Has start .loadNil ∧ stop = start + 1

/-- Where a name is defined. -/
def DefinesAt (layout : Layout) (name : String) (start stop : Nat) : Prop :=
  if layout.isOutermost then
    ∃ place, chunk.Has start (.defineGlobal place) ∧ chunk.Names place name ∧ stop = start + 2
  else stop = start

/-- The condition of a counting loop; unless it holds, the loop is left at `leave`. -/
def ConditionAt (names : List String) : Option Expression → Nat → Nat → Nat → Prop
  | none, start, stop, _ => stop = start
  | some condition, start, stop, leave =>
    ∃ tested, condition.CodeAt chunk names start tested ∧
      chunk.Jumps .jumpIfFalse tested leave ∧ chunk.Has (tested + 3) .pop ∧ stop = tested + 4

/-- The increment of a counting loop, which goes on at `test`; the next round starts at `again`. -/
def IncrementAt (names : List String) (test : Nat) : Option Expression → Nat → Nat → Nat → Prop
  | none, start, stop, again => stop = start ∧ again = test
  | some increment, start, stop, again =>
    ∃ advanced, chunk.Jumps .jump start stop ∧
      increment.CodeAt chunk names (start + 3) advanced ∧ chunk.Has advanced .pop ∧
      chunk.LoopsTo (advanced + 1) test ∧ stop = advanced + 4 ∧ again = start + 3

def ExitAt : Option Expression → Nat → Nat → Prop
  | none, start, stop => stop = start
  | some _, start, stop => chunk.Has start .pop ∧ stop = start + 1

/-- Where values are given up. -/
def PopsAt (count start stop : Nat) : Prop :=
  chunk.HasAll (List.replicate count .pop) start stop

end Statement

/-- Whether the code of a statement stands between two offsets, with `marks` between statements. -/
def Statement.CodeAt : Statement → Chunk Constant → Layout → Nat → Nat → List (Nat × Nat) → Prop
  | .empty, _, _, start, stop, marks => stop = start ∧ marks = []
  | .sequence first rest, chunk, layout, start, stop, marks =>
    ∃ middle marksFirst marksRest, first.CodeAt chunk layout start middle marksFirst ∧
      rest.CodeAt chunk (layout.after first) middle stop marksRest ∧
      marks = marksFirst ++ marksRest
  | .expression value, chunk, layout, start, stop, marks =>
    ∃ valued, value.CodeAt chunk layout.names start valued ∧ chunk.Has valued .pop ∧
      stop = valued + 1 ∧ marks = layout.ends (.expression value) start stop
  | .print value, chunk, layout, start, stop, marks =>
    ∃ valued, value.CodeAt chunk layout.names start valued ∧ chunk.Has valued .print ∧
      stop = valued + 1 ∧ marks = layout.ends (.print value) start stop
  | .varDeclaration name initial, chunk, layout, start, stop, marks =>
    ∃ valued, InitialAt chunk layout.names initial start valued ∧
      DefinesAt chunk layout name valued stop ∧
      marks = layout.ends (.varDeclaration name initial) start stop
  | .funDeclaration name parameters body, chunk, layout, start, stop, marks =>
    ∃ place function done marksInside, chunk.Has start (.constant place) ∧
      chunk.constants[place]? = some (.function function) ∧
      chunk.rank place = layout.functions ∧ function.name = name ∧
      function.arity = parameters.length ∧
      body.CodeAt function.chunk (.function name parameters) 0 done marksInside ∧
      function.chunk.HasAll [.loadNil, .ret] done function.chunk.size ∧
      DefinesAt chunk layout name (start + 2) stop ∧
      marks = layout.ends (.funDeclaration name parameters body) start stop
  | .block body, chunk, layout, start, stop, marks =>
    ∃ done marksInside, body.CodeAt chunk layout.inScope start done marksInside ∧
      PopsAt chunk body.declared.length done stop ∧
      marks = layout.ends (.block body) start stop ++ marksInside
  | .conditional condition met unmet, chunk, layout, start, stop, marks =>
    ∃ tested chosen marksMet marksUnmet, condition.CodeAt chunk layout.names start tested ∧
      chunk.Jumps .jumpIfFalse tested (chosen + 3) ∧ chunk.Has (tested + 3) .pop ∧
      met.CodeAt chunk layout (tested + 4) chosen marksMet ∧ chunk.Jumps .jump chosen stop ∧
      chunk.Has (chosen + 3) .pop ∧
      unmet.CodeAt chunk (layout.after met) (chosen + 4) stop marksUnmet ∧
      marks = layout.ends (.conditional condition met unmet) start stop ++ (marksMet ++ marksUnmet)
  | .whileLoop condition body, chunk, layout, start, stop, marks =>
    ∃ tested done marksInside, condition.CodeAt chunk layout.names start tested ∧
      chunk.Jumps .jumpIfFalse tested (done + 3) ∧ chunk.Has (tested + 3) .pop ∧
      body.CodeAt chunk (layout.inLoop start stop) (tested + 4) done marksInside ∧
      chunk.LoopsTo done start ∧ chunk.Has (done + 3) .pop ∧ stop = done + 4 ∧
      marks = layout.ends (.whileLoop condition body) start stop ++ marksInside
  | .forLoop initial condition increment body, chunk, layout, start, stop, marks =>
    ∃ test advance entry done exit again marksInitial marksInside,
      initial.CodeAt chunk layout.inScope start test marksInitial ∧
      ConditionAt chunk (layout.inScope.after initial).names condition test advance (done + 3) ∧
      IncrementAt chunk (layout.inScope.after initial).names test increment advance entry again ∧
      body.CodeAt chunk ((layout.inScope.after initial).inLoop again exit) entry done marksInside ∧
      chunk.LoopsTo done again ∧ ExitAt chunk condition (done + 3) exit ∧
      PopsAt chunk initial.declared.length exit stop ∧
      marks = layout.ends (.forLoop initial condition increment body) start stop ++
        (marksInitial ++ marksInside)
  | .breakLoop, chunk, layout, start, stop, marks =>
    ∃ loop popped, layout.loop = some loop ∧ loop.height ≤ layout.names.length ∧
      PopsAt chunk (layout.names.length - loop.height) start popped ∧
      chunk.Jumps .jump popped loop.exit ∧ stop = popped + 3 ∧
      marks = layout.ends .breakLoop start stop
  | .continueLoop, chunk, layout, start, stop, marks =>
    ∃ loop popped, layout.loop = some loop ∧ loop.height ≤ layout.names.length ∧
      PopsAt chunk (layout.names.length - loop.height) start popped ∧
      chunk.LoopsTo popped loop.start ∧ stop = popped + 3 ∧
      marks = layout.ends .continueLoop start stop
  | .returnValue none, chunk, layout, start, stop, marks =>
    layout.kind = .function ∧ chunk.HasAll [.loadNil, .ret] start stop ∧
      marks = layout.ends (.returnValue none) start stop
  | .returnValue (some value), chunk, layout, start, stop, marks =>
    layout.kind = .function ∧ ∃ valued, value.CodeAt chunk layout.names start valued ∧
      chunk.Has valued .ret ∧ stop = valued + 1 ∧
      marks = layout.ends (.returnValue (some value)) start stop

theorem Statement.codeAt_whileLoop {condition : Expression} {body : Statement}
    {chunk : Chunk Constant} {layout : Layout} {start stop : Nat} {marks : List (Nat × Nat)} :
    (whileLoop condition body).CodeAt chunk layout start stop marks ↔
      (forLoop .empty (some condition) none body).CodeAt chunk layout start stop marks := by
  constructor
  · rintro ⟨tested, done, marksInside, codeCondition, jumps, pops, codeBody, loops, popsToo, rfl,
      marksEq⟩
    exact ⟨start, tested + 4, tested + 4, done, done + 4, start, [], marksInside, ⟨rfl, rfl⟩,
      ⟨tested, codeCondition, jumps, pops, rfl⟩, ⟨rfl, rfl⟩, codeBody, loops, ⟨popsToo, rfl⟩, rfl,
      marksEq⟩
  · rintro ⟨_, _, _, done, _, _, _, marksInside, ⟨rfl, rfl⟩, ⟨tested, codeCondition, jumps, pops,
      rfl⟩, ⟨rfl, rfl⟩, codeBody, loops, ⟨popsToo, rfl⟩, rfl, marksEq⟩
    exact ⟨tested, done, marksInside, codeCondition, jumps, pops, codeBody, loops, popsToo, rfl,
      marksEq⟩

/-- Whether a chunk is the code of `body` and nothing else, followed by a return of nil. -/
def Chunk.Implements (chunk : Chunk Constant) (layout : Layout) (body : Statement)
    (marks : List (Nat × Nat)) : Prop :=
  ∃ done, body.CodeAt chunk layout 0 done marks ∧
    chunk.HasAll [.loadNil, .ret] done chunk.size

end StackScript
