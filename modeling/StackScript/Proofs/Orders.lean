import StackScript.Proofs.Extent

/-!
# The orders of a tree

What the instructions in the code of a tree are for, said of the tree alone. An order is an
instruction that says which constant, name or function is meant and not where in the pool it is.
-/

namespace StackScript

open List (forall_mem_append forall_mem_cons forall_mem_singleton)

namespace Instruction

/-- Whether an instruction refers to the pool of constants. -/
def usesPool : Instruction → Bool
  | constant _ | defineGlobal _ | setGlobal _ | getGlobal _ => true
  | _ => false

/-- Whether it is a jump back. -/
def isLoop : Instruction → Bool
  | loop _ => true
  | _ => false

end Instruction

/-- What an instruction is for. -/
inductive Order where
  | plain (instruction : Instruction)
  | load (constant : Constant)
  | function (number : Nat) (name : String) (parameters : List String) (body : Statement)
  | get (name : String)
  | set (name : String)
  | define (name : String)

/--
Whether an instruction of a chunk carries out an order. There are `before` functions in the pool
that are not counted in the orders, in front of all others.
-/
inductive Order.Stands (chunk : Chunk Constant) (before : Nat) : Order → Instruction → Prop where
  | plain {instruction : Instruction} (noPool : instruction.usesPool = false) :
      Stands chunk before (.plain instruction) instruction
  | load {place : Nat} {constant : Constant} (plain : constant.function? = none)
      (held : chunk.constants[place]? = some constant) :
      Stands chunk before (.load constant) (.constant place)
  | function {place number : Nat} {function : Function} {name : String}
      {parameters : List String} {body : Statement} {marks : List (Nat × Nat)}
      (held : chunk.constants[place]? = some (.function function))
      (counted : chunk.rank place = number + before) (name_eq : function.name = name)
      (arity_eq : function.arity = parameters.length)
      (implements : function.chunk.Implements (.function name parameters) body marks) :
      Stands chunk before (.function number name parameters body) (.constant place)
  | get {place : Nat} {name : String} (named : chunk.Names place name) :
      Stands chunk before (.get name) (.getGlobal place)
  | set {place : Nat} {name : String} (named : chunk.Names place name) :
      Stands chunk before (.set name) (.setGlobal place)
  | define {place : Nat} {name : String} (named : chunk.Names place name) :
      Stands chunk before (.define name) (.defineGlobal place)

/-- Whether code carries out orders. -/
def Chunk.Holds (chunk : Chunk Constant) (before : Nat) : List Order → Nat → Nat → Prop
  | [], start, stop => stop = start
  | order :: rest, start, stop =>
    ∃ instruction, chunk.Has start instruction ∧ order.Stands chunk before instruction ∧
      chunk.Holds before rest (start + instruction.size) stop

/-! ## The orders of expressions -/

/-- The order for an access to a variable, where these names are bound to slots. -/
def Order.access (names : List String) (name : String) (toSlot : Nat → Instruction)
    (toGlobal : String → Order) : Order :=
  (slotOf? name names).elim (toGlobal name) fun slot => .plain (toSlot slot)

/-- Whether it can be part of an expression. -/
def Order.isInner : Order → Bool
  | plain instruction => !instruction.isLoop
  | load _ | get _ | set _ => true
  | function _ _ _ _ | define _ => false

mutual

/-- The orders of an expression. -/
def Expression.orders (names : List String) : Expression → List Order
  | .number value => [.load (.number value)]
  | .string text => [.load (.string text)]
  | .literal value => [.plain (value.opcode.instruction 0)]
  | .reference name => [.access names name .getLocal .get]
  | .assign name value => value.orders names ++ [.access names name .setLocal .set]
  | .unary operator operand => operand.orders names ++ [.plain (operator.opcode.instruction 0)]
  | .binary operator left right =>
    left.orders names ++ (right.orders names ++ operator.opcodes.map (.plain <| ·.instruction 0))
  | .and left right =>
    left.orders names ++
      .plain (.jumpIfFalse (right.size + 1)) :: .plain .pop :: right.orders names
  | .or left right =>
    left.orders names ++ .plain (.jumpIfFalse 3) :: .plain (.jump (right.size + 1)) ::
      .plain .pop :: right.orders names
  | .call callee arguments =>
    callee.orders names ++
      (Expression.ordersAll names arguments ++ [.plain (.call arguments.length)])

def Expression.ordersAll (names : List String) : List Expression → List Order
  | [] => []
  | first :: rest => first.orders names ++ Expression.ordersAll names rest

end

namespace Chunk.Holds

variable {chunk : Chunk Constant} {before start middle stop target : Nat} {order : Order}
  {orders others : List Order} {instruction : Instruction}

theorem append (first : chunk.Holds before orders start middle)
    (second : chunk.Holds before others middle stop) :
    chunk.Holds before (orders ++ others) start stop := by
  induction orders generalizing start with
  | nil =>
    cases first
    exact second
  | cons order rest ih =>
    rcases first with ⟨instruction, found, stands, onward⟩
    exact ⟨instruction, found, stands, ih onward⟩

theorem one (found : chunk.Has start instruction) (stands : order.Stands chunk before instruction) :
    chunk.Holds before [order] start (start + instruction.size) :=
  ⟨instruction, found, stands, rfl⟩

theorem plain (found : chunk.Has start instruction) (noPool : instruction.usesPool = false) :
    chunk.Holds before [.plain instruction] start (start + instruction.size) :=
  one found (.plain noPool)

theorem pop (found : chunk.Has start .pop) :
    chunk.Holds before [.plain .pop] start (start + 1) :=
  plain found rfl

theorem ofHasAll {opcodes : List Opcode} (bare : ∀ opcode ∈ opcodes, opcode.operandSize = 0)
    (found : chunk.HasAll opcodes start stop) :
    chunk.Holds before (opcodes.map (.plain <| ·.instruction 0)) start stop := by
  induction opcodes generalizing start with
  | nil => exact found
  | cons opcode rest ih =>
    have bareFirst := bare opcode (by simp)
    have noPool : (opcode.instruction 0).usesPool = false := by
      cases opcode <;> first | rfl | cases bareFirst
    have sized : (opcode.instruction 0).size = 1 := by
      simp [Opcode.size, bareFirst]
    have onward := ih (fun other present => bare other (by simp [present])) found.2
    rw [← sized] at onward
    exact ⟨_, found.1, .plain noPool, onward⟩

theorem ofPops {count : Nat} (found : Statement.PopsAt chunk count start stop) :
    chunk.Holds before (List.replicate count (.plain .pop)) start stop := by
  have held : chunk.Holds before _ start stop := ofHasAll (fun opcode present => by
    rw [List.eq_of_mem_replicate present]
    rfl) found
  rw [List.map_replicate] at held
  exact held

theorem ofReturn (found : chunk.HasAll [.loadNil, .ret] start stop) :
    chunk.Holds before [.plain .loadNil, .plain .ret] start stop :=
  ofHasAll (by simp [Opcode.operandSize]) found

theorem ofJumps (before distance : Nat) {opcode : Opcode}
    (forward : opcode = .jump ∨ opcode = .jumpIfFalse)
    (found : chunk.Jumps opcode start target) (targetEq : target = start + 3 + distance) :
    chunk.Holds before [.plain (opcode.instruction distance)] start (start + 3) := by
  have here := found.2
  rw [targetEq, Nat.add_sub_cancel_left] at here
  rcases forward with rfl | rfl
  · exact plain here rfl
  · exact plain here rfl

theorem ofLoops (before distance : Nat) (found : chunk.LoopsTo start target)
    (targetEq : target + distance = start + 3) :
    chunk.Holds before [.plain (.loop distance)] start (start + 3) := by
  have here := found.2
  rw [← targetEq, Nat.add_sub_cancel_left] at here
  exact plain here rfl

theorem ofAccesses {names : List String} {name : String} {toSlot toGlobal : Nat → Instruction}
    {named : String → Order}
    (slots : ∀ slot, (toSlot slot).usesPool = false ∧ (toSlot slot).size = 2)
    (globals : ∀ {place : Nat}, chunk.Names place name →
      (named name).Stands chunk before (toGlobal place) ∧ (toGlobal place).size = 2)
    (found : chunk.Accesses names name toSlot toGlobal start) :
    chunk.Holds before [.access names name toSlot named] start (start + 2) := by
  rcases found with ⟨slot, bound, found⟩ | ⟨free, place, found, hasName⟩
  · rw [Order.access, bound, ← (slots slot).2]
    exact plain found (slots slot).1
  · rcases globals hasName with ⟨stands, sized⟩
    rw [Order.access, free, ← sized]
    exact one found stands

end Chunk.Holds

namespace Expression

open Chunk.Holds

variable {chunk : Chunk Constant} {before : Nat} {names : List String} {start stop : Nat}

theorem all_hold {arguments : List Expression}
    (each : ∀ argument ∈ arguments, ∀ {start stop : Nat}, argument.CodeAt chunk names start stop →
      chunk.Holds before (argument.orders names) start stop)
    (code : AllCodeAt chunk names arguments start stop) :
    chunk.Holds before (ordersAll names arguments) start stop := by
  induction arguments generalizing start with
  | nil => exact code
  | cons first rest ih =>
    rcases code with ⟨middle, codeFirst, codeRest⟩
    exact (each first (by simp) codeFirst).append
      (ih (fun argument present => each argument (by simp [present])) codeRest)

theorem holds (expression : Expression) (code : expression.CodeAt chunk names start stop) :
    chunk.Holds before (expression.orders names) start stop := by
  induction expression generalizing start stop with
  | number value | string value =>
    rcases code with ⟨place, found, held, rfl⟩
    exact one found (.load rfl held)
  | literal value =>
    rcases code with ⟨found, rfl⟩
    cases value <;> exact plain found rfl
  | reference name =>
    rcases code with ⟨accesses, rfl⟩
    exact ofAccesses (fun _ => ⟨rfl, rfl⟩) (fun named => ⟨.get named, rfl⟩) accesses
  | assign name value ih =>
    rcases code with ⟨valued, code, accesses, rfl⟩
    exact (ih code).append
      (ofAccesses (fun _ => ⟨rfl, rfl⟩) (fun named => ⟨.set named, rfl⟩) accesses)
  | unary operator operand ih =>
    rcases code with ⟨operated, code, found, rfl⟩
    refine (ih code).append ?_
    cases operator <;> exact plain found rfl
  | binary operator left right ihLeft ihRight =>
    rcases code with ⟨first, second, codeLeft, codeRight, found⟩
    refine (ihLeft codeLeft).append ((ihRight codeRight).append (ofHasAll ?_ found))
    cases operator <;> simp [BinaryOperator.opcodes, Opcode.operandSize]
  | and left right ihLeft ihRight =>
    rcases code with ⟨first, codeLeft, jumps, found, codeRight⟩
    have stopEq := right.stop_eq codeRight
    have test := ofJumps before (right.size + 1) (.inr rfl) jumps (by omega)
    exact (ihLeft codeLeft).append (test.append ((pop found).append (ihRight codeRight)))
  | or left right ihLeft ihRight =>
    rcases code with ⟨first, codeLeft, skips, jumps, found, codeRight⟩
    have stopEq := right.stop_eq codeRight
    have test := ofJumps before 3 (.inr rfl) skips (by omega)
    have jump := ofJumps before (right.size + 1) (.inl rfl) jumps (by omega)
    exact (ihLeft codeLeft).append
      (test.append (jump.append ((pop found).append (ihRight codeRight))))
  | call callee arguments ihCallee ihArguments =>
    rcases code with ⟨called, given, codeCallee, codes, found, rfl⟩
    exact (ihCallee codeCallee).append
      ((all_hold ihArguments codes).append (plain found rfl))

theorem inner_access (name : String) {toSlot : Nat → Instruction} {toGlobal : String → Order}
    (slots : ∀ slot, (Order.plain (toSlot slot)).isInner = true)
    (globals : (toGlobal name).isInner = true) :
    (Order.access names name toSlot toGlobal).isInner = true := by
  rw [Order.access]
  cases slotOf? name names with
  | none => exact globals
  | some slot => exact slots slot

theorem inner_all {arguments : List Expression}
    (each : ∀ argument ∈ arguments, ∀ order ∈ argument.orders names, order.isInner = true) :
    ∀ order ∈ ordersAll names arguments, order.isInner = true := by
  induction arguments with
  | nil => exact List.forall_mem_nil _
  | cons first rest ih =>
    exact forall_mem_append.mpr
      ⟨each first (by simp), ih fun other later => each other (by simp [later])⟩

theorem inner (expression : Expression) :
    ∀ order ∈ expression.orders names, order.isInner = true := by
  induction expression with
  | number value | string text => exact forall_mem_singleton.mpr rfl
  | literal value => cases value <;> exact forall_mem_singleton.mpr rfl
  | reference name => exact forall_mem_singleton.mpr (inner_access name (fun _ => rfl) rfl)
  | assign name value ih =>
    exact forall_mem_append.mpr
      ⟨ih, forall_mem_singleton.mpr (inner_access name (fun _ => rfl) rfl)⟩
  | unary operator operand ih =>
    refine forall_mem_append.mpr ⟨ih, forall_mem_singleton.mpr ?_⟩
    cases operator <;> rfl
  | binary operator left right ihLeft ihRight =>
    refine forall_mem_append.mpr ⟨ihLeft, forall_mem_append.mpr ⟨ihRight, ?_⟩⟩
    cases operator <;> simp [BinaryOperator.opcodes] <;> decide
  | and left right ihLeft ihRight =>
    simp only [orders, forall_mem_append, forall_mem_cons]
    exact ⟨ihLeft, rfl, rfl, ihRight⟩
  | or left right ihLeft ihRight =>
    simp only [orders, forall_mem_append, forall_mem_cons]
    exact ⟨ihLeft, rfl, rfl, rfl, ihRight⟩
  | call callee arguments ihCallee ihArguments =>
    simp only [orders, forall_mem_append, forall_mem_singleton]
    exact ⟨ihCallee, inner_all ihArguments, rfl⟩

end Expression

/-! ## The orders of statements -/

def Site.defines (site : Site) (name : String) : List Order :=
  if site.isOutermost then [.define name] else []

namespace Statement

def initialOrders (names : List String) (initial : Option Expression) : List Order :=
  initial.elim [.plain .loadNil] (Expression.orders names)

def conditionOrders (names : List String) (condition : Option Expression) (distance : Nat) :
    List Order :=
  condition.elim [] fun value =>
    value.orders names ++ [.plain (.jumpIfFalse distance), .plain .pop]

def incrementOrders (names : List String) (tested : Nat) (increment : Option Expression) :
    List Order :=
  increment.elim [] fun value => .plain (.jump (value.size + 4)) ::
    (value.orders names ++ [.plain .pop, .plain (.loop (tested + value.size + 7))])

def exitOrders (condition : Option Expression) : List Order :=
  condition.elim [] fun _ => [.plain .pop]

def resultOrders (names : List String) (value : Option Expression) : List Order :=
  value.elim [.plain .loadNil, .plain .ret] fun value => value.orders names ++ [.plain .ret]

/-- The orders of the rounds of a loop. -/
def roundOrders (names : List String) (condition increment : Option Expression) (extent : Nat)
    (body : List Order) : List Order :=
  conditionOrders names condition (incrementSize increment + extent + 4) ++
    (incrementOrders names (conditionSize condition) increment ++
      (body ++ .plain (.loop (roundSize condition increment + extent + 3)) :: exitOrders condition))

/--
The orders of a statement, behind that many functions. The loop around it ends `ahead` bytes behind
the start of the statement.
-/
def orders : Statement → Site → Nat → Nat → List Order
  | empty, _, _, _ => []
  | sequence first rest, site, functions, ahead =>
    first.orders site functions ahead ++
      rest.orders ((site.after first).past (first.size site)) (functions + first.functionCount)
        (ahead - first.size site)
  | expression value, site, _, _ => value.orders site.names ++ [.plain .pop]
  | print value, site, _, _ => value.orders site.names ++ [.plain .print]
  | varDeclaration name initial, site, _, _ =>
    initialOrders site.names initial ++ site.defines name
  | funDeclaration name parameters body, site, functions, _ =>
    .function functions name parameters body :: site.defines name
  | block body, site, functions, ahead =>
    body.orders site.inScope functions ahead ++ List.replicate body.declared.length (.plain .pop)
  | conditional condition met unmet, site, functions, ahead =>
    let entry := condition.size + 4
    let behind := entry + met.size site + 4
    condition.orders site.names ++
      .plain (.jumpIfFalse (met.size site + 4)) :: .plain .pop ::
        (met.orders (site.past entry) functions (ahead - entry) ++
          .plain (.jump (unmet.size site + 1)) :: .plain .pop ::
            unmet.orders ((site.after met).past behind) (functions + met.functionCount)
              (ahead - behind))
  | whileLoop condition body, site, functions, _ =>
    let inside := site.inScope.inLoop
    roundOrders site.names condition none (body.size inside)
      (body.orders (inside.past (roundSize condition none)) functions (body.size inside + 4))
  | forLoop initial condition increment body, site, functions, ahead =>
    let inside := (site.inScope.after initial).inLoop
    initial.orders site.inScope functions ahead ++
      (roundOrders inside.names condition increment (body.size inside)
        (body.orders (inside.past (roundSize condition increment))
          (functions + initial.functionCount) (body.size inside + 3 + exitSize condition)) ++
        List.replicate initial.declared.length (.plain .pop))
  | breakLoop, site, _, ahead => site.loop.elim [] fun _ =>
    List.replicate site.surplus (.plain .pop) ++ [.plain (.jump (ahead - (site.surplus + 3)))]
  | continueLoop, site, _, _ => site.loop.elim [] fun loop =>
    List.replicate site.surplus (.plain .pop) ++
      [.plain (.loop (loop.behind + site.surplus + 3))]
  | returnValue value, site, _, _ => resultOrders site.names value

end Statement

/-- Whether a site is true of a layout at an offset, with what orders depend on besides. -/
structure Site.Locates (site : Site) (layout : Layout) (start functions before ahead : Nat) : Prop
    extends site.Measures layout where
  functions_eq : layout.functions = functions + before
  loops : Option.Rel (fun place loop => place.start + loop.behind = start ∧
    ahead = place.exit - start) layout.loop site.loop

theorem Site.Measures.past {site : Site} {layout : Layout} (measures : site.Measures layout)
    (bytes : Nat) : (site.past bytes).Measures layout := by
  refine ⟨measures.names_eq, measures.outermost_eq, ?_⟩
  rw [measures.height_eq, Site.past, Option.map_map]
  rfl

namespace Site.Locates

theorem script : Site.script.Locates .script 0 0 0 0 :=
  ⟨⟨rfl, rfl, rfl⟩, rfl, .none⟩

theorem function (name : String) (parameters : List String) :
    (Site.function name parameters).Locates (.function name parameters) 0 0 0 0 :=
  ⟨⟨rfl, rfl, rfl⟩, rfl, .none⟩

variable {site : Site} {layout : Layout} {start functions before ahead next rest : Nat}

variable (locates : site.Locates layout start functions before ahead)
include locates

theorem past (bytes : Nat) (nextEq : next = start + bytes) (restEq : rest = ahead - bytes) :
    (site.past bytes).Locates layout next functions before rest := by
  refine ⟨locates.toMeasures.past bytes, locates.functions_eq, ?_⟩
  have loops := locates.loops
  rw [Site.past]
  generalize layout.loop = place at loops
  generalize site.loop = loop at loops
  cases loops with
  | none => exact .none
  | some located => exact .some ⟨by simp only; omega, by omega⟩

theorem inScope : site.inScope.Locates layout.inScope start functions before ahead :=
  ⟨locates.toMeasures.inScope, locates.functions_eq, locates.loops⟩

theorem after (statement : Statement) :
    (site.after statement).Locates (layout.after statement) start
      (functions + statement.functionCount) before ahead := by
  refine ⟨locates.toMeasures.after statement, ?_, locates.loops⟩
  have functionsEq := locates.functions_eq
  simp only [Layout.after]
  omega

theorem inLoop (inside : site.isOutermost = false) (again exit : Nat) :
    site.inLoop.Locates (layout.inLoop again exit) again functions before (exit - again) :=
  ⟨locates.toMeasures.inLoop inside again exit, locates.functions_eq, .some ⟨rfl, rfl⟩⟩

theorem exists_loop {place : LoopPlace} (inLoop : layout.loop = some place) :
    ∃ loop, site.loop = some loop ∧ place.start + loop.behind = start ∧
      ahead = place.exit - start := by
  have loops := locates.loops
  rw [inLoop] at loops
  generalize site.loop = loop at loops
  cases loops with
  | some located => exact ⟨_, rfl, located⟩

end Site.Locates

namespace Statement

open Chunk.Holds

variable {chunk : Chunk Constant} {names : List String} {start stop functions before ahead : Nat}
  {site : Site} {layout : Layout} {condition increment : Option Expression}

theorem initial_holds {initial : Option Expression}
    (code : InitialAt chunk names initial start stop) :
    chunk.Holds before (initialOrders names initial) start stop := by
  cases initial with
  | some value => exact value.holds code
  | none =>
    rcases code with ⟨found, rfl⟩
    exact plain found rfl

theorem defines_holds {name : String} (code : DefinesAt chunk layout name start stop)
    (measures : site.Measures layout) : chunk.Holds before (site.defines name) start stop := by
  rw [Site.defines, ← measures.outermost_eq]
  rw [DefinesAt] at code
  split at code
  · next outermost =>
    rcases code with ⟨place, found, named, rfl⟩
    rw [if_pos outermost]
    exact one found (.define named)
  · next inside =>
    rw [if_neg inside]
    exact code

theorem condition_holds {leave distance : Nat}
    (code : ConditionAt chunk names condition start stop leave)
    (leaveEq : leave + 1 = stop + distance) :
    chunk.Holds before (conditionOrders names condition distance) start stop := by
  cases condition with
  | none => exact code
  | some value =>
    rcases code with ⟨tested, codeValue, jumps, found, rfl⟩
    have test := ofJumps before distance (.inr rfl) jumps (by omega)
    exact (value.holds codeValue).append (test.append (pop found))

theorem increment_holds {test again tested : Nat}
    (code : IncrementAt chunk names test increment start stop again)
    (startEq : start = test + tested) :
    chunk.Holds before (incrementOrders names tested increment) start stop := by
  cases increment with
  | none => exact code.1
  | some value =>
    rcases code with ⟨advanced, jumps, codeValue, found, loops, rfl, _⟩
    have advancedEq := value.stop_eq codeValue
    have jump := ofJumps before (value.size + 4) (.inl rfl) jumps (by omega)
    have loop := ofLoops before (tested + value.size + 7) loops (by omega)
    exact jump.append ((value.holds codeValue).append ((pop found).append loop))

theorem exit_holds (code : ExitAt chunk condition start stop) :
    chunk.Holds before (exitOrders condition) start stop := by
  cases condition with
  | none => exact code
  | some value =>
    rcases code with ⟨found, rfl⟩
    exact pop found

theorem IncrementAt.round_eq {test again : Nat}
    (code : IncrementAt chunk names test increment start stop again)
    (startEq : start = test + conditionSize condition) :
    stop = again + roundSize condition increment := by
  have stopEq := code.stop_eq
  cases increment with
  | none =>
    rw [code.2, code.1]
    exact startEq
  | some value =>
    rcases code with ⟨_, _, _, _, _, _, rfl⟩
    simp only [incrementSize, roundSize, Option.elim_some] at stopEq ⊢
    omega

def Carried (statement : Statement) : Prop :=
  ∀ ⦃chunk : Chunk Constant⦄ ⦃site : Site⦄ ⦃layout : Layout⦄ ⦃start stop : Nat⦄
    ⦃functions before ahead : Nat⦄ ⦃marks : List (Nat × Nat)⦄,
    statement.CodeAt chunk layout start stop marks →
    site.Locates layout start functions before ahead →
    chunk.Holds before (statement.orders site functions ahead) start stop

theorem empty_carried : empty.Carried := by
  intro chunk site layout start stop functions before ahead _ code _
  exact code.1

theorem forLoop_carried {initial body : Statement} (carriedInitial : initial.Carried)
    (carriedBody : body.Carried) (placed : body.Placed) :
    (forLoop initial condition increment body).Carried := by
  rintro chunk site layout start stop functions before ahead _
    ⟨test, advance, entry, done, exit, again, _, _, begins, tests, advances, code, loops, leaves,
      pops, _⟩ locates
  have inside := (locates.inScope.after initial).inLoop rfl again exit
  have namesEq := (locates.inScope.after initial).names_eq
  rw [namesEq] at tests advances
  have advanceEq := tests.stop_eq
  have entryEq := advances.stop_eq
  have roundEq := advances.round_eq advanceEq
  have doneEq := body.stop_eq placed code inside.toMeasures
  have exitEq := leaves.stop_eq
  have loop := ofLoops before (roundSize condition increment +
    body.size (site.inScope.after initial).inLoop + 3) loops (by omega)
  exact (carriedInitial begins locates.inScope).append
    (((condition_holds tests (by omega)).append ((increment_holds advances advanceEq).append
      ((carriedBody code (inside.past _ roundEq (by omega))).append
        (loop.append (exit_holds leaves))))).append (ofPops pops))

theorem carried (statement : Statement) (placed : statement.Placed) : statement.Carried := by
  induction statement with
  | empty => exact empty_carried
  | sequence first rest ihFirst ihRest =>
    rintro chunk site layout start stop functions before ahead _ ⟨middle, _, _, code, behind, _⟩
      locates
    have middleEq := first.stop_eq placed.1 code locates.toMeasures
    exact (ihFirst placed.1 code locates).append
      (ihRest placed.2 behind ((locates.after first).past _ middleEq rfl))
  | expression value =>
    rintro chunk site layout start _ functions before ahead _ ⟨valued, code, found, rfl, _⟩ locates
    rw [locates.names_eq] at code
    exact (value.holds code).append (pop found)
  | print value =>
    rintro chunk site layout start _ functions before ahead _ ⟨valued, code, found, rfl, _⟩ locates
    rw [locates.names_eq] at code
    exact (value.holds code).append (plain found rfl)
  | varDeclaration name initial =>
    rintro chunk site layout start stop functions before ahead _ ⟨valued, code, defines, _⟩ locates
    rw [locates.names_eq] at code
    exact (initial_holds code).append (defines_holds defines locates.toMeasures)
  | funDeclaration name parameters body _ =>
    rintro chunk site layout start stop functions before ahead _
      ⟨place, function, done, _, found, held, counted, nameEq, arityEq, inside, returns, defines, _⟩
      locates
    rw [locates.functions_eq] at counted
    exact (one found (.function held counted nameEq arityEq ⟨done, inside, returns⟩)).append
      (defines_holds defines locates.toMeasures)
  | block body ih =>
    rintro chunk site layout start stop functions before ahead _ ⟨done, _, code, pops, _⟩ locates
    exact (ih placed code locates.inScope).append (ofPops pops)
  | conditional condition met unmet ihMet ihUnmet =>
    rintro chunk site layout start stop functions before ahead _
      ⟨tested, chosen, _, _, test, skips, found, code, jumps, drops, behind, _⟩ locates
    rcases placed with ⟨placedMet, metDeclares, placedUnmet, _⟩
    rw [locates.names_eq] at test
    have noneBound : site.after met = site := by
      simp [Site.after, Site.bind, Site.binds, metDeclares]
    have testedEq := condition.stop_eq test
    have chosenEq := met.stop_eq placedMet code locates.toMeasures
    have stopEq := unmet.stop_eq placedUnmet behind (locates.after met).toMeasures
    rw [noneBound] at stopEq
    have skip := ofJumps before (met.size site + 4) (.inr rfl) skips
      (by omega)
    have jump := ofJumps before (unmet.size site + 1) (.inl rfl) jumps
      (by omega)
    have front := ihMet placedMet code (locates.past (condition.size + 4) (by omega) rfl)
    have back := ihUnmet placedUnmet behind ((locates.after met).past
      (condition.size + 4 + met.size site + 4) (by omega) rfl)
    exact (condition.holds test).append (skip.append ((pop found).append (front.append
      (jump.append ((pop drops).append back)))))
  | whileLoop condition body ih =>
    intro chunk site layout start stop functions before ahead marks code locates
    have same : (forLoop .empty (some condition) none body).orders site functions ahead =
        (whileLoop condition body).orders site functions ahead := List.append_nil _
    rw [← same]
    exact forLoop_carried empty_carried (ih placed.1) placed.1 (codeAt_whileLoop.mp code) locates
  | forLoop initial condition increment body ihInitial ihBody =>
    exact forLoop_carried (ihInitial (placed_of_isClause placed.1)) (ihBody placed.2.1) placed.2.1
  | breakLoop =>
    rintro chunk site layout start _ functions before ahead _
      ⟨place, popped, inLoop, _, pops, jumps, rfl, _⟩ locates
    have surplusEq := locates.toMeasures.surplus_eq inLoop
    rcases locates.exists_loop inLoop with ⟨loop, loopEq, _, aheadEq⟩
    rw [← surplusEq] at pops
    have poppedEq := PopsAt.stop_eq pops
    have reaches := jumps.1
    rw [orders, loopEq]
    exact (ofPops pops).append (ofJumps before _ (.inl rfl) jumps (by omega))
  | continueLoop =>
    rintro chunk site layout start _ functions before ahead _
      ⟨place, popped, inLoop, _, pops, loops, rfl, _⟩ locates
    have surplusEq := locates.toMeasures.surplus_eq inLoop
    rcases locates.exists_loop inLoop with ⟨loop, loopEq, startEq, _⟩
    rw [← surplusEq] at pops
    have poppedEq := PopsAt.stop_eq pops
    rw [orders, loopEq]
    exact (ofPops pops).append (ofLoops before _ loops (by omega))
  | returnValue value =>
    cases value with
    | none =>
      intro chunk site layout start stop functions before ahead _ code _
      exact ofReturn code.2.1
    | some value =>
      rintro chunk site layout start _ functions before ahead _
        ⟨_, valued, code, found, rfl, _⟩ locates
      rw [locates.names_eq] at code
      exact (value.holds code).append (plain found rfl)

end Statement

theorem Chunk.Implements.holds {chunk : Chunk Constant} {site : Site} {layout : Layout}
    {body : Statement} {marks : List (Nat × Nat)} (implements : chunk.Implements layout body marks)
    (placed : body.Placed) (locates : site.Locates layout 0 0 0 0) :
    chunk.Holds 0 (body.orders site 0 0 ++ [.plain .loadNil, .plain .ret]) 0 chunk.size := by
  rcases implements with ⟨done, code, returns⟩
  exact (body.carried placed code locates).append (.ofReturn returns)

end StackScript
