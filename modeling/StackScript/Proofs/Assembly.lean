import Mathlib.Tactic.Tauto
import StackScript.Proofs.Generation
import StackScript.Proofs.Settling

/-!
# The code of an expression

Which bytes an expression comes to, as a function of its tree, of the locals that are open and of
the pool that it finds. Writing a tree gives exactly these bytes, and it fails exactly if the tree
breaks a rule or the pool is full.
-/

namespace StackScript

variable {opcode : Opcode} {opcodes : List Opcode}

open Compile

namespace Pool

/-- Gives a name a place if it is no local. -/
def resolve (locals : List Local) (pool : Pool) (name : String) : Pool :=
  match Local.resolve? name locals with
  | some _ => pool
  | none => pool.withName name

/-- The instruction that accesses a name. -/
def access (locals : List Local) (pool : Pool) (name : String) (toSlot toGlobal : Opcode) :
    Opcode × Nat :=
  match Local.resolve? name locals with
  | some (slot, _) => (toSlot, slot)
  | none => (toGlobal, (pool.placeOf name).toNat)

end Pool

/-- The bytes of instructions, each of them an operation with its operand. -/
def assemble (instructions : List (Opcode × Nat)) : List UInt8 :=
  instructions.flatMap fun instruction => instruction.1.bytes instruction.2

mutual

/-- The pool behind an expression. -/
def Expression.fill (locals : List Local) : Expression → Pool → Pool
  | .number value, pool => pool.add (.number value)
  | .string text, pool => pool.add (.string text)
  | .literal _, pool => pool
  | .reference name, pool => pool.resolve locals name
  | .assign name value, pool => value.fill locals (pool.resolve locals name)
  | .unary _ operand, pool => operand.fill locals pool
  | .binary _ left right, pool => right.fill locals (left.fill locals pool)
  | .and left right, pool => right.fill locals (left.fill locals pool)
  | .or left right, pool => right.fill locals (left.fill locals pool)
  | .call callee arguments, pool => Expression.fillAll locals arguments (callee.fill locals pool)

def Expression.fillAll (locals : List Local) : List Expression → Pool → Pool
  | [], pool => pool
  | first :: rest, pool => Expression.fillAll locals rest (first.fill locals pool)

end

mutual

/-- The bytes of an expression. -/
def Expression.size : Expression → Nat
  | .number _ | .string _ | .reference _ => 2
  | .literal _ => 1
  | .assign _ value => value.size + 2
  | .unary _ operand => operand.size + 1
  | .binary operator left right => left.size + right.size + operator.opcodes.length
  | .and left right => left.size + 4 + right.size
  | .or left right => left.size + 7 + right.size
  | .call callee arguments => callee.size + Expression.sizeAll arguments + 2

def Expression.sizeAll : List Expression → Nat
  | [] => 0
  | first :: rest => first.size + Expression.sizeAll rest

end

mutual

/-- The instructions of an expression. -/
def Expression.code (locals : List Local) : Expression → Pool → List (Opcode × Nat)
  | .number _, pool | .string _, pool => [(.constant, pool.size)]
  | .literal value, _ => [(value.opcode, 0)]
  | .reference name, pool => [pool.access locals name .getLocal .getGlobal]
  | .assign name value, pool =>
    value.code locals (pool.resolve locals name) ++ [pool.access locals name .setLocal .setGlobal]
  | .unary operator operand, pool => operand.code locals pool ++ [(operator.opcode, 0)]
  | .binary operator left right, pool =>
    left.code locals pool ++ right.code locals (left.fill locals pool) ++
      operator.opcodes.map (·, 0)
  | .and left right, pool =>
    left.code locals pool ++ (.jumpIfFalse, right.size + 1) :: (.pop, 0) ::
      right.code locals (left.fill locals pool)
  | .or left right, pool =>
    left.code locals pool ++ (.jumpIfFalse, 3) :: (.jump, right.size + 1) :: (.pop, 0) ::
      right.code locals (left.fill locals pool)
  | .call callee arguments, pool =>
    callee.code locals pool ++ Expression.codeAll locals arguments (callee.fill locals pool) ++
      [(.call, arguments.length)]

def Expression.codeAll (locals : List Local) : List Expression → Pool → List (Opcode × Nat)
  | [], _ => []
  | first :: rest, pool =>
    first.code locals pool ++ Expression.codeAll locals rest (first.fill locals pool)

end

mutual

/-- The names in an expression. -/
def Expression.identifiers : Expression → List String
  | .number _ | .string _ | .literal _ => []
  | .reference name => [name]
  | .assign name value => name :: value.identifiers
  | .unary _ operand => operand.identifiers
  | .binary _ left right | .and left right | .or left right =>
    left.identifiers ++ right.identifiers
  | .call callee arguments => callee.identifiers ++ Expression.allIdentifiers arguments

def Expression.allIdentifiers : List Expression → List String
  | [] => []
  | first :: rest => first.identifiers ++ Expression.allIdentifiers rest

end

mutual

/-- How many arguments its calls have. -/
def Expression.argumentCounts : Expression → List Nat
  | .number _ | .string _ | .literal _ | .reference _ => []
  | .assign _ operand | .unary _ operand => operand.argumentCounts
  | .binary _ left right | .and left right | .or left right =>
    left.argumentCounts ++ right.argumentCounts
  | .call callee arguments =>
    callee.argumentCounts ++ Expression.allArgumentCounts arguments ++ [arguments.length]

def Expression.allArgumentCounts : List Expression → List Nat
  | [] => []
  | first :: rest => first.argumentCounts ++ Expression.allArgumentCounts rest

end

mutual

/-- The distances of its jumps. -/
def Expression.distances : Expression → List Nat
  | .number _ | .string _ | .literal _ | .reference _ => []
  | .assign _ operand | .unary _ operand => operand.distances
  | .binary _ left right => left.distances ++ right.distances
  | .and left right => left.distances ++ right.distances ++ [right.size + 1]
  | .or left right => left.distances ++ right.distances ++ [3, right.size + 1]
  | .call callee arguments => callee.distances ++ Expression.allDistances arguments

def Expression.allDistances : List Expression → List Nat
  | [] => []
  | first :: rest => first.distances ++ Expression.allDistances rest

end

/-- Whether a name refers to something other than a local in its own initializer. -/
def Local.Initialized (locals : List Local) (name : String) : Prop :=
  ∀ slot entry, Local.resolve? name locals = some (slot, entry) → entry.depth ≠ none

/-- Whether the numbers of arguments and the distances of jumps are small enough. -/
def Expression.Small (expression : Expression) : Prop :=
  (∀ count ∈ expression.argumentCounts, count ≤ maxArguments) ∧
    ∀ distance ∈ expression.distances, distance ≤ maxDistance

@[simp] theorem assemble_nil : assemble [] = [] :=
  rfl

@[simp] theorem assemble_cons (instruction : Opcode × Nat) (rest : List (Opcode × Nat)) :
    assemble (instruction :: rest) = instruction.1.bytes instruction.2 ++ assemble rest := by
  simp [assemble]

@[simp] theorem assemble_append (first second : List (Opcode × Nat)) :
    assemble (first ++ second) = assemble first ++ assemble second := by
  simp [assemble]

/-! ## Pools grow -/

namespace Pool

theorem size_le_add (pool : Pool) (constant : Constant) : pool.size ≤ (pool.add constant).size := by
  simp [Pool.size, Pool.add]

theorem size_le_withName (pool : Pool) (name : String) : pool.size ≤ (pool.withName name).size := by
  rw [withName]
  split
  · exact Nat.le_refl _
  · simp [Pool.size]

theorem size_le_resolve (locals : List Local) (pool : Pool) (name : String) :
    pool.size ≤ (pool.resolve locals name).size := by
  rw [resolve]
  split
  · exact Nat.le_refl _
  · exact pool.size_le_withName name

theorem room_iff {less more : Pool} (grows : less.size ≤ more.size) :
    more.size ≤ Chunk.maxConstants ↔
      less.size ≤ Chunk.maxConstants ∧ more.size ≤ Chunk.maxConstants := by
  constructor
  · intro enough
    exact ⟨Nat.le_trans grows enough, enough⟩
  · exact fun both => both.2

end Pool

theorem Expression.size_le_fillAll {locals : List Local} {arguments : List Expression}
    (each : ∀ argument ∈ arguments, ∀ pool : Pool, pool.size ≤ (argument.fill locals pool).size)
    (pool : Pool) : pool.size ≤ (Expression.fillAll locals arguments pool).size := by
  induction arguments generalizing pool with
  | nil => exact Nat.le_refl _
  | cons first rest ih =>
    have firstGrows := each first List.mem_cons_self pool
    have restGrows := ih (fun argument present => each argument (List.mem_cons_of_mem _ present))
      (first.fill locals pool)
    rw [Expression.fillAll]
    exact Nat.le_trans firstGrows restGrows

theorem Expression.size_le_fill (locals : List Local) (expression : Expression) (pool : Pool) :
    pool.size ≤ (expression.fill locals pool).size := by
  induction expression generalizing pool with
  | number value => exact pool.size_le_add _
  | string text => exact pool.size_le_add _
  | literal value => exact Nat.le_refl _
  | reference name => exact pool.size_le_resolve locals name
  | assign name value ih =>
    rw [Expression.fill]
    exact Nat.le_trans (pool.size_le_resolve locals name) (ih _)
  | unary operator operand ih =>
    rw [Expression.fill]
    exact ih pool
  | binary operator left right ihLeft ihRight =>
    rw [Expression.fill]
    exact Nat.le_trans (ihLeft pool) (ihRight _)
  | and left right ihLeft ihRight =>
    rw [Expression.fill]
    exact Nat.le_trans (ihLeft pool) (ihRight _)
  | or left right ihLeft ihRight =>
    rw [Expression.fill]
    exact Nat.le_trans (ihLeft pool) (ihRight _)
  | call callee arguments ihCallee ihArguments =>
    rw [Expression.fill]
    exact Nat.le_trans (ihCallee pool) (Expression.size_le_fillAll ihArguments _)

/-! ## Instructions that were written -/

/-- Whether a compiler has added instructions to the code and come to a pool, and no more. -/
structure Compiler.Appends (writer : Compiler) (instructions : List (Opcode × Nat)) (pool : Pool)
    (after : Compiler) : Prop where
  frame : writer.draft.SameFrame after.draft
  code_eq : after.draft.chunk.code.toList = writer.draft.chunk.code.toList ++ assemble instructions
  pool_eq : after.draft.pooled = pool
  enclosing_eq : after.enclosing = writer.enclosing

namespace Compiler.Appends

variable {writer middle after : Compiler} {instructions others : List (Opcode × Nat)}
  {pool pool' : Pool}

theorem refl (writer : Compiler) : writer.Appends [] writer.draft.pooled writer :=
  ⟨.refl _, by simp, rfl, rfl⟩

theorem trans (first : writer.Appends instructions pool middle)
    (second : middle.Appends others pool' after) :
    writer.Appends (instructions ++ others) pool' after := by
  refine ⟨first.frame.trans second.frame, ?_, second.pool_eq,
    second.enclosing_eq.trans first.enclosing_eq⟩
  rw [second.code_eq, first.code_eq, assemble_append, List.append_assoc]

theorem size_eq (appends : writer.Appends instructions pool after) :
    after.draft.chunk.size = writer.draft.chunk.size + (assemble instructions).length := by
  have total := congrArg List.length appends.code_eq
  simpa [Chunk.size] using total

theorem write (writer : Compiler) (opcode : Opcode) (operand line : Nat) :
    writer.Appends [(opcode, operand)] writer.draft.pooled
      (writer.onDraft (·.write opcode operand line)) :=
  ⟨⟨rfl, rfl, rfl⟩, by simp [Compiler.onDraft, Draft.write, Chunk.write], rfl, rfl⟩

theorem thenWrite (appends : writer.Appends instructions pool middle) (opcode : Opcode)
    (operand line : Nat) :
    writer.Appends (instructions ++ [(opcode, operand)]) pool
      (middle.onDraft (·.write opcode operand line)) := by
  have writes := Compiler.Appends.write middle opcode operand line
  rw [appends.pool_eq] at writes
  exact appends.trans writes

theorem withPool (writer : Compiler) (pool : Pool) :
    writer.Appends [] pool (writer.onDraft (·.withPool pool)) :=
  ⟨⟨rfl, rfl, rfl⟩, by simp [Compiler.onDraft, Draft.withPool], rfl, rfl⟩

theorem patch {front back : List (Opcode × Nat)} {opcode : Opcode} {operand : Nat}
    (appends : writer.Appends (front ++ (opcode, operand) :: back) pool after)
    (wide : opcode.operandSize = 2) (word : Nat) :
    writer.Appends (front ++ (opcode, word) :: back) pool (after.onDraft
      (·.patch (writer.draft.chunk.size + (assemble front).length + 1) word)) := by
  refine ⟨⟨appends.frame.head_eq,
    appends.frame.locals_eq, appends.frame.scopes_eq⟩, ?_, appends.pool_eq, appends.enclosing_eq⟩
  have codeEq := appends.code_eq
  simp only [assemble_append, assemble_cons, Opcode.bytes, Opcode.operandBytes, wide,
    List.cons_append, List.nil_append, ← List.append_assoc] at codeEq ⊢
  have place : writer.draft.chunk.size + (assemble front).length =
      (writer.draft.chunk.code.toList ++ assemble front).length := by
    simp [Chunk.size]
  simp only [Compiler.onDraft, Draft.patch, Chunk.patchWord, Array.toList_setIfInBounds, codeEq,
    place]
  rw [List.set_append_right _ _ (by omega), List.set_append_right _ _ (by omega)]
  simp only [Nat.add_assoc, Nat.add_sub_cancel_left]
  rfl

end Compiler.Appends

/-! ## Names -/

namespace Pool

/-- What a name refers to. -/
def reference (locals : List Local) (pool : Pool) (name : String) : Reference :=
  match Local.resolve? name locals with
  | some (slot, _) => .slot (UInt8.ofNat slot)
  | none => .global (pool.placeOf name)

end Pool

namespace Compile

variable {writer : Compiler}

theorem resolve_settles (name : String) (room : writer.draft.pooled.size ≤ Chunk.maxConstants) :
    Settles (Local.Initialized writer.draft.locals name)
      ((writer.draft.pooled.resolve writer.draft.locals name).size ≤ Chunk.maxConstants)
      (fun reference after =>
        reference = writer.draft.pooled.reference writer.draft.locals name ∧
        after = writer.onDraft (·.withPool (writer.draft.pooled.resolve writer.draft.locals name)))
      (resolve name writer) := by
  rw [resolve, get_bind, Local.Initialized, Pool.resolve, Pool.reference]
  rcases Local.resolve? name writer.draft.locals with _ | ⟨slot, opened, _ | depth⟩
  case some.none =>
      have broken : ¬∀ place entry, some (slot, (⟨opened, none⟩ : Local)) = some (place, entry) →
          entry.depth ≠ none := by
        intro all
        exact all slot _ rfl rfl
      exact ⟨fun both => broken both.1, fun allowed => absurd allowed broken⟩
  case some.some =>
      refine ⟨?_, room, rfl, rfl⟩
      intro place entry same
      cases same
      simp
  case none =>
      refine ((nameConstant_settles name room).thenOk ?_).congr (by simp) Iff.rfl
      rintro place after _ ⟨rfl, rfl⟩
      exact ⟨_, _, rfl, rfl, rfl⟩

theorem emitWith_appends {opcode : Opcode} (short : opcode.operandSize = 1) (operand : Nat)
    (writer : Compiler) :
    ∃ after, emitWith opcode (UInt8.ofNat operand) writer = .ok () after ∧
      writer.Appends [(opcode, operand)] writer.draft.pooled after := by
  have appends := Compiler.Appends.write writer opcode (UInt8.ofNat operand).toNat
    writer.previous.line
  refine ⟨_, emitWith_apply short _ writer, appends.frame, ?_, rfl, rfl⟩
  rw [appends.code_eq]
  simp only [assemble_cons, Opcode.bytes, Opcode.operandBytes, short, UInt8.ofNat_toNat]

theorem access_appends {toSlot toGlobal : Opcode} (slotShort : toSlot.operandSize = 1)
    (globalShort : toGlobal.operandSize = 1) (locals : List Local) (pool : Pool) (name : String)
    (writer : Compiler) :
    ∃ after, (match pool.reference locals name with
        | .slot number => emitWith toSlot number
        | .global index => emitWith toGlobal index) writer = .ok () after ∧
      writer.Appends [pool.access locals name toSlot toGlobal] writer.draft.pooled after := by
  rw [Pool.reference, Pool.access]
  match Local.resolve? name locals with
  | some (slot, _) => exact emitWith_appends slotShort slot writer
  | none => exact ⟨_, emitWith_apply globalShort _ writer, .write ..⟩

theorem emitGet_appends (locals : List Local) (pool : Pool) (name : String) (writer : Compiler) :
    ∃ after, (pool.reference locals name).emitGet writer = .ok () after ∧
      writer.Appends [pool.access locals name .getLocal .getGlobal] writer.draft.pooled after :=
  access_appends rfl rfl locals pool name writer

theorem emitSet_appends (locals : List Local) (pool : Pool) (name : String) (writer : Compiler) :
    ∃ after, (pool.reference locals name).emitSet writer = .ok () after ∧
      writer.Appends [pool.access locals name .setLocal .setGlobal] writer.draft.pooled after :=
  access_appends rfl rfl locals pool name writer

end Compile

/-! ## The size of code -/

theorem KeywordLiteral.opcode_bare (value : KeywordLiteral) : value.opcode.operandSize = 0 := by
  cases value <;> rfl

theorem UnaryOperator.opcode_bare (operator : UnaryOperator) : operator.opcode.operandSize = 0 := by
  cases operator <;> rfl

theorem BinaryOperator.opcodes_bare (operator : BinaryOperator) :
    ∀ opcode ∈ operator.opcodes, opcode.operandSize = 0 := by
  cases operator <;> decide

theorem length_assemble_bare (bare : ∀ opcode ∈ opcodes, opcode.operandSize = 0) :
    (assemble (opcodes.map (·, 0))).length = opcodes.length := by
  induction opcodes with
  | nil => rfl
  | cons opcode rest ih =>
    have first := bare opcode List.mem_cons_self
    have others := ih fun other present => bare other (List.mem_cons_of_mem _ present)
    simp only [List.map_cons, assemble_cons, List.length_append, Opcode.length_bytes,
      Opcode.size, first, others, List.length_cons]
    omega

theorem Pool.length_access (locals : List Local) (pool : Pool) (name : String)
    {toSlot toGlobal : Opcode} (slotShort : toSlot.operandSize = 1)
    (globalShort : toGlobal.operandSize = 1) :
    (assemble [pool.access locals name toSlot toGlobal]).length = 2 := by
  rw [Pool.access]
  split
  · simp [Opcode.size, slotShort]
  · simp [Opcode.size, globalShort]

namespace Expression

theorem length_codeAll {locals : List Local} {arguments : List Expression}
    (each : ∀ argument ∈ arguments, ∀ pool : Pool,
      (assemble (argument.code locals pool)).length = argument.size) (pool : Pool) :
    (assemble (codeAll locals arguments pool)).length = sizeAll arguments := by
  induction arguments generalizing pool with
  | nil => rfl
  | cons first rest ih =>
    rw [codeAll, sizeAll, assemble_append, List.length_append,
      each first List.mem_cons_self pool,
      ih fun argument present => each argument (List.mem_cons_of_mem _ present)]

theorem length_code (locals : List Local) (expression : Expression) (pool : Pool) :
    (assemble (expression.code locals pool)).length = expression.size := by
  induction expression generalizing pool with
  | number value => rfl
  | string text => rfl
  | literal value => simp [code, size, Opcode.size, value.opcode_bare]
  | reference name =>
    rw [code, size]
    exact pool.length_access locals name rfl rfl
  | assign name value ih =>
    rw [code, size, assemble_append, List.length_append, ih, pool.length_access locals name rfl rfl]
  | unary operator operand ih => simp [code, size, ih, Opcode.size, operator.opcode_bare]
  | binary operator left right ihLeft ihRight =>
    rw [code, size, assemble_append, assemble_append, List.length_append, List.length_append,
      ihLeft, ihRight, length_assemble_bare operator.opcodes_bare]
  | and left right ihLeft ihRight =>
    simp only [code, size, assemble_append, assemble_cons, List.length_append, ihLeft, ihRight,
      Opcode.length_bytes, Opcode.size, Opcode.operandSize]
    omega
  | or left right ihLeft ihRight =>
    simp only [code, size, assemble_append, assemble_cons, List.length_append, ihLeft, ihRight,
      Opcode.length_bytes, Opcode.size, Opcode.operandSize]
    omega
  | call callee arguments ihCallee ihArguments =>
    simp only [code, size, assemble_append, List.length_append, ihCallee,
      length_codeAll ihArguments]
    rfl

theorem length_behind_pop (locals : List Local) (expression : Expression) (pool : Pool) :
    (assemble ((.pop, 0) :: expression.code locals pool)).length = expression.size + 1 := by
  rw [assemble_cons, List.length_append, length_code, Nat.add_comm]
  rfl

/-! ## Writing an expression -/

def Legal (locals : List Local) (expression : Expression) : Prop :=
  (∀ name ∈ expression.identifiers, Local.Initialized locals name) ∧ expression.Small

def Assembled (expression : Expression) : Prop :=
  ∀ writer : Compiler, writer.draft.pooled.size ≤ Chunk.maxConstants →
    Settles (expression.Legal writer.draft.locals)
      ((expression.fill writer.draft.locals writer.draft.pooled).size ≤ Chunk.maxConstants)
      (fun _ after => writer.Appends (expression.code writer.draft.locals writer.draft.pooled)
        (expression.fill writer.draft.locals writer.draft.pooled) after)
      (expression.generate writer)

theorem room_iff (expression : Expression) (locals : List Local) (pool : Pool) :
    (expression.fill locals pool).size ≤ Chunk.maxConstants ↔
      pool.size ≤ Chunk.maxConstants ∧ (expression.fill locals pool).size ≤ Chunk.maxConstants :=
  Pool.room_iff (expression.size_le_fill locals pool)

theorem Assembled.behind {expression : Expression} (assembled : expression.Assembled)
    {writer middle : Compiler} {instructions : List (Opcode × Nat)} {pool : Pool}
    (before : writer.Appends instructions pool middle) (room : pool.size ≤ Chunk.maxConstants) :
    Settles (expression.Legal writer.draft.locals)
      ((expression.fill writer.draft.locals pool).size ≤ Chunk.maxConstants)
      (fun _ after => writer.Appends (instructions ++ expression.code writer.draft.locals pool)
        (expression.fill writer.draft.locals pool) after)
      (expression.generate middle) := by
  have settles := assembled middle (by rw [before.pool_eq]; exact room)
  rw [before.pool_eq, before.frame.locals_eq] at settles
  exact settles.imp fun _ after _ _ appends => before.trans appends

end Expression

theorem Compile.emit_appends (bare : opcode.operandSize = 0) (writer : Compiler) :
    ∃ after, emit opcode writer = .ok () after ∧
      writer.Appends [(opcode, 0)] writer.draft.pooled after :=
  ⟨_, emit_apply bare writer, .write ..⟩

theorem Compile.emitAll_appends (bare : ∀ opcode ∈ opcodes, opcode.operandSize = 0)
    (writer : Compiler) :
    ∃ after, opcodes.forM emit writer = .ok () after ∧
      writer.Appends (opcodes.map (·, 0)) writer.draft.pooled after := by
  induction opcodes generalizing writer with
  | nil => exact ⟨writer, rfl, .refl writer⟩
  | cons opcode rest ih =>
    rcases emit_appends (bare opcode List.mem_cons_self) writer with ⟨middle, ran, appends⟩
    rcases ih (fun other present => bare other (List.mem_cons_of_mem _ present)) middle with
      ⟨after, ranRest, appendsRest⟩
    refine ⟨after, ?_, ?_⟩
    · exact (bind_of_ok ran).trans ranRest
    · rw [appends.pool_eq] at appendsRest
      exact appends.trans appendsRest

theorem Compile.patchJump_appends {writer middle : Compiler} {front back : List (Opcode × Nat)}
    {operand offset : Nat} {pool : Pool}
    (appends : writer.Appends (front ++ (opcode, operand) :: back) pool middle)
    (wide : opcode.operandSize = 2)
    (offsetEq : offset = writer.draft.chunk.size + (assemble front).length + 1) :
    Settles ((assemble back).length ≤ maxDistance) True
      (fun _ after => writer.Appends (front ++ (opcode, (assemble back).length) :: back) pool after)
      (patchJump offset middle) := by
  have sizeEq := appends.size_eq
  simp only [assemble_append, assemble_cons, List.length_append, Opcode.length_bytes, Opcode.size,
    wide] at sizeEq
  have distance : middle.draft.chunk.size - (offset + 2) = (assemble back).length := by omega
  have settles := patchJump_settles (show offset + 2 ≤ middle.draft.chunk.size by omega)
  rw [distance] at settles
  refine settles.imp ?_
  rintro _ _ _ _ rfl
  rw [offsetEq]
  exact appends.patch wide _

namespace Expression

variable {left right expression : Expression} {arguments : List Expression}

theorem constant_assembled (constant : Constant)
    (writes : expression.generate = emitConstant constant)
    (filled : ∀ locals pool, expression.fill locals pool = pool.add constant)
    (coded : ∀ locals pool, expression.code locals pool = [(.constant, pool.size)])
    (legal : ∀ locals, expression.Legal locals) : expression.Assembled := by
  intro writer _
  rw [writes, filled, coded]
  refine ((emitConstant_settles constant).imp ?_).congr (iff_of_true trivial (legal _)) Iff.rfl
  rintro _ _ _ _ rfl
  exact (Compiler.Appends.withPool writer (writer.draft.pooled.add constant)).trans
    (.write _ .constant writer.draft.pooled.size writer.previous.line)

theorem legal_of_empty (noNames : expression.identifiers = [])
    (noCalls : expression.argumentCounts = []) (noJumps : expression.distances = [])
    (locals : List Local) : expression.Legal locals := by
  simp [Legal, Small, noNames, noCalls, noJumps]

theorem literal_assembled (value : KeywordLiteral) : (literal value).Assembled := by
  intro writer room
  rcases emit_appends value.opcode_bare writer with ⟨after, ran, appends⟩
  rw [generate, ran]
  exact ⟨legal_of_empty rfl rfl rfl _, room, appends⟩

section Legal

variable {locals : List Local} {name : String} {operator : BinaryOperator}
  {value left right callee : Expression} {arguments : List Expression}

theorem legal_reference : (reference name).Legal locals ↔ Local.Initialized locals name := by
  simp [Legal, Small, identifiers, argumentCounts, distances]

theorem legal_assign : (assign name value).Legal locals ↔
    Local.Initialized locals name ∧ value.Legal locals := by
  simp [Legal, Small, identifiers, argumentCounts, distances, and_assoc]

theorem legal_binary : (binary operator left right).Legal locals ↔
    left.Legal locals ∧ right.Legal locals := by
  simp only [Legal, Small, identifiers, argumentCounts, distances, List.forall_mem_append]
  tauto

theorem legal_and : (and left right).Legal locals ↔
    left.Legal locals ∧ right.Legal locals ∧ right.size + 1 ≤ maxDistance := by
  simp only [Legal, Small, identifiers, argumentCounts, distances, List.forall_mem_append,
    List.forall_mem_singleton]
  tauto

theorem legal_or : (or left right).Legal locals ↔
    left.Legal locals ∧ right.Legal locals ∧ right.size + 1 ≤ maxDistance := by
  have short : 3 ≤ maxDistance := by decide
  simp only [Legal, Small, identifiers, argumentCounts, distances, List.forall_mem_append,
    List.forall_mem_cons, short]
  simp
  tauto

def AllLegal (locals : List Local) (arguments : List Expression) : Prop :=
  ∀ argument ∈ arguments, argument.Legal locals

theorem allLegal_iff : AllLegal locals arguments ↔
    (∀ name ∈ allIdentifiers arguments, Local.Initialized locals name) ∧
      (∀ count ∈ allArgumentCounts arguments, count ≤ maxArguments) ∧
      ∀ distance ∈ allDistances arguments, distance ≤ maxDistance := by
  induction arguments with
  | nil => simp [AllLegal, allIdentifiers, allArgumentCounts, allDistances]
  | cons first rest ih =>
    rw [AllLegal, List.forall_mem_cons, ← AllLegal, ih]
    simp only [Legal, Small, allIdentifiers, allArgumentCounts, allDistances,
      List.forall_mem_append]
    tauto

theorem legal_call : (call callee arguments).Legal locals ↔
    callee.Legal locals ∧ AllLegal locals arguments ∧ arguments.length ≤ maxArguments := by
  rw [allLegal_iff]
  simp only [Legal, Small, identifiers, argumentCounts, distances, List.forall_mem_append,
    List.forall_mem_singleton]
  tauto

end Legal

theorem reference_assembled (name : String) : (reference name).Assembled := by
  intro writer room
  rw [generate, legal_reference]
  apply (resolve_settles name room).thenOk
  rintro _ _ _ ⟨rfl, rfl⟩
  have appends := Compiler.Appends.withPool writer
    (writer.draft.pooled.resolve writer.draft.locals name)
  rcases emitGet_appends writer.draft.locals writer.draft.pooled name
    (writer.onDraft (·.withPool (writer.draft.pooled.resolve writer.draft.locals name)))
    with ⟨after, ran, gets⟩
  exact ⟨(), after, ran, appends.trans gets⟩

theorem assign_assembled (name : String) {value : Expression} (assembled : value.Assembled) :
    (assign name value).Assembled := by
  intro writer room
  rw [generate]
  apply (resolve_settles name room).andThen legal_assign (value.room_iff _ _)
  rintro _ _ _ enough ⟨rfl, rfl⟩
  have appends := Compiler.Appends.withPool writer
    (writer.draft.pooled.resolve writer.draft.locals name)
  apply (assembled.behind appends enough).thenOk
  intro _ middle _ appendsValue
  rcases emitSet_appends writer.draft.locals writer.draft.pooled name middle with ⟨after, ran, sets⟩
  rw [appendsValue.pool_eq] at sets
  exact ⟨(), after, ran, appendsValue.trans sets⟩

theorem unary_assembled (operator : UnaryOperator) {operand : Expression}
    (assembled : operand.Assembled) : (unary operator operand).Assembled := by
  intro writer room
  rw [generate]
  apply (assembled writer room).thenOk
  intro _ middle _ appends
  rcases emit_appends operator.opcode_bare middle with ⟨after, ran, emits⟩
  rw [appends.pool_eq] at emits
  exact ⟨(), after, ran, appends.trans emits⟩

theorem binary_assembled (operator : BinaryOperator) (assembledLeft : left.Assembled)
    (assembledRight : right.Assembled) : (binary operator left right).Assembled := by
  intro writer room
  rw [generate]
  apply (assembledLeft writer room).andThen legal_binary (right.room_iff _ _)
  intro _ middle _ enough appendsLeft
  apply (assembledRight.behind appendsLeft enough).thenOk
  intro _ operated _ appendsRight
  rcases emitAll_appends operator.opcodes_bare operated with ⟨after, ran, emits⟩
  rw [appendsRight.pool_eq] at emits
  exact ⟨(), after, ran, appendsRight.trans emits⟩

theorem and_assembled (assembledLeft : left.Assembled) (assembledRight : right.Assembled) :
    (and left right).Assembled := by
  intro writer room
  rw [generate]
  apply (assembledLeft writer room).andThen legal_and (right.room_iff _ _)
  intro _ middle _ enough appendsLeft
  apply Settles.after (emitJump_apply rfl middle)
  apply Settles.after (emit_apply rfl _)
  have jumped := (appendsLeft.thenWrite .jumpIfFalse placeholder middle.previous.line).thenWrite
    .pop 0 middle.previous.line
  apply (assembledRight.behind jumped enough).thenRule Iff.rfl
  intro _ last _ appendsRight
  simp only [List.append_assoc, List.cons_append, List.nil_append] at appendsRight
  have settles := patchJump_appends appendsRight rfl (congrArg (· + 1) appendsLeft.size_eq)
  rw [length_behind_pop] at settles
  exact settles

theorem or_assembled (assembledLeft : left.Assembled) (assembledRight : right.Assembled) :
    (or left right).Assembled := by
  intro writer room
  rw [generate]
  apply (assembledLeft writer room).andThen legal_or (right.room_iff _ _)
  intro _ middle _ enough appendsLeft
  apply Settles.after (emitJump_apply rfl middle)
  apply Settles.after (emitJump_apply rfl _)
  have jumped := (appendsLeft.thenWrite .jumpIfFalse placeholder middle.previous.line).thenWrite
    .jump placeholder middle.previous.line
  simp only [List.append_assoc, List.cons_append, List.nil_append] at jumped
  have short : (assemble [(Opcode.jump, placeholder)]).length ≤ maxDistance := by decide
  apply (patchJump_appends jumped rfl (congrArg (· + 1) appendsLeft.size_eq)).andThen
    (and_iff_right short).symm (and_iff_right trivial).symm
  intro _ patched _ _ patches
  apply Settles.after (emit_apply rfl patched)
  have popped := patches.thenWrite .pop 0 patched.previous.line
  apply (assembledRight.behind popped enough).thenRule Iff.rfl
  intro _ last _ appendsRight
  have regrouped : ∀ (front : List (Opcode × Nat)) (first second third : Opcode × Nat) back,
      front ++ [first, second] ++ [third] ++ back =
        front ++ [first] ++ second :: third :: back := by
    simp
  rw [regrouped] at appendsRight
  have offset : (middle.onDraft
      (·.write .jumpIfFalse placeholder middle.previous.line)).draft.chunk.size + 1 =
      writer.draft.chunk.size + (assemble (left.code writer.draft.locals writer.draft.pooled ++
        [(.jumpIfFalse, (assemble [(Opcode.jump, placeholder)]).length)])).length + 1 := by
    rw [(appendsLeft.thenWrite .jumpIfFalse placeholder middle.previous.line).size_eq]
    simp
  have settles := patchJump_appends appendsRight rfl offset
  rw [length_behind_pop] at settles
  simp only [List.append_assoc, List.cons_append, List.nil_append] at settles
  exact settles

theorem arguments_assembled (each : ∀ argument ∈ arguments, argument.Assembled)
    {writer middle : Compiler} {instructions : List (Opcode × Nat)} {pool : Pool} {count : Nat}
    (before : writer.Appends instructions pool middle) (room : pool.size ≤ Chunk.maxConstants)
    (few : count ≤ maxArguments) :
    Settles (AllLegal writer.draft.locals arguments ∧ count + arguments.length ≤ maxArguments)
      ((fillAll writer.draft.locals arguments pool).size ≤ Chunk.maxConstants)
      (fun _ after => writer.Appends
        (instructions ++ codeAll writer.draft.locals arguments pool)
        (fillAll writer.draft.locals arguments pool) after)
      (generateAll arguments count middle) := by
  induction arguments generalizing middle instructions pool count with
  | nil =>
    refine ⟨⟨by simp [AllLegal], few⟩, room, ?_⟩
    rw [codeAll, fillAll, List.append_nil]
    exact before
  | cons first rest ih =>
    have rules : AllLegal writer.draft.locals (first :: rest) ∧
        count + (first :: rest).length ≤ maxArguments ↔
        first.Legal writer.draft.locals ∧ AllLegal writer.draft.locals rest ∧
          count + 1 + rest.length ≤ maxArguments := by
      rw [AllLegal, List.forall_mem_cons, and_assoc, List.length_cons, Nat.add_assoc,
        Nat.add_comm 1]
      rfl
    have grows : (first.fill writer.draft.locals pool).size ≤
        (fillAll writer.draft.locals rest (first.fill writer.draft.locals pool)).size :=
      size_le_fillAll (fun argument _ pool => argument.size_le_fill writer.draft.locals pool) _
    rw [generateAll, fillAll, codeAll, ← List.append_assoc]
    apply ((each first List.mem_cons_self).behind before room).andThen rules (Pool.room_iff grows)
    intro _ after _ enough appendsFirst
    by_cases full : count = maxArguments
    · rw [if_pos full]
      apply Settles.ofFail
      omega
    · rw [if_neg full]
      exact ih (fun argument present => each argument (List.mem_cons_of_mem _ present))
        appendsFirst enough (by omega)

theorem call_assembled {callee : Expression} (assembledCallee : callee.Assembled)
    (each : ∀ argument ∈ arguments, argument.Assembled) : (call callee arguments).Assembled := by
  intro writer room
  rw [generate]
  apply (assembledCallee writer room).andThen legal_call (Pool.room_iff (size_le_fillAll
    (fun argument _ pool => argument.size_le_fill writer.draft.locals pool) _))
  intro _ middle _ enough appendsCallee
  have settles := arguments_assembled each appendsCallee enough (Nat.zero_le _)
  rw [Nat.zero_add] at settles
  apply settles.thenOk
  intro _ given _ appendsArguments
  rcases emitWith_appends (show Opcode.call.operandSize = 1 from rfl) arguments.length given with
    ⟨after, ran, calls⟩
  rw [appendsArguments.pool_eq] at calls
  exact ⟨(), after, ran, appendsArguments.trans calls⟩

theorem assembled (expression : Expression) : expression.Assembled := by
  induction expression with
  | number value =>
    exact constant_assembled (.number value) (by rw [generate]) (fun _ _ => by rw [fill])
      (fun _ _ => by rw [code]) (legal_of_empty rfl rfl rfl)
  | string text =>
    exact constant_assembled (.string text) (by rw [generate]) (fun _ _ => by rw [fill])
      (fun _ _ => by rw [code]) (legal_of_empty rfl rfl rfl)
  | literal value => exact literal_assembled value
  | reference name => exact reference_assembled name
  | assign name value ih => exact assign_assembled name ih
  | unary operator operand ih => exact unary_assembled operator ih
  | binary operator left right ihLeft ihRight => exact binary_assembled operator ihLeft ihRight
  | and left right ihLeft ihRight => exact and_assembled ihLeft ihRight
  | or left right ihLeft ihRight => exact or_assembled ihLeft ihRight
  | call callee arguments ihCallee ihArguments => exact call_assembled ihCallee ihArguments

end Expression

end StackScript
