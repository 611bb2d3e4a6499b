import StackScript.Proofs.Assembly
import StackScript.Proofs.Building

/-!
# Places in the pool and the instructions that refer to them

A place in the pool is given out for a constant, which exactly one instruction loads, or for the
name of a global variable, which every access to it refers to. In a finished function no place is
neither; while it is written, a name can be pending.
-/

namespace StackScript

variable {operations : List Operation} {opcode : Opcode}

open Compile (forwardJumps wide_of_forward)

/-- Whether it does not refer to the pool. -/
def Instruction.Placeless (instruction : Instruction) : Prop :=
  instruction.loadedPlace? = none ∧ instruction.globalPlace? = none

namespace Chunk

variable (chunk : Chunk Constant)

/-- Whether the instructions make exact use of the pool. -/
structure Exact : Prop where
  loads_nodup : chunk.loadedPlaces.Nodup
  mem_loads : ∀ place, place ∈ chunk.loadedPlaces ↔
    place < chunk.constants.size ∧ place ∉ chunk.globalPlaces
  named : ∀ place ∈ chunk.globalPlaces, ∃ name, chunk.Names place name
  same : ∀ place ∈ chunk.globalPlaces, ∀ other ∈ chunk.globalPlaces, ∀ name,
    chunk.Names place name → chunk.Names other name → place = other

/-- Whether instructions have lines, and a function is loaded on the line on which it ends. -/
structure Stamped : Prop where
  length_eq : chunk.instructions.length = chunk.lines.size
  loaded : ∀ (index place : Nat) (function : Function),
    chunk.instructions[index]? = some (.constant place) →
    chunk.constants[place]? = some (.function function) →
    chunk.lines[index]? = function.chunk.lines.back?

end Chunk

/-- Whether a function and those below it make exact use of their pools, and have lines. -/
abbrev Function.Booked : Function → Prop :=
  Function.Every fun function => function.chunk.Exact ∧ function.chunk.Stamped

/-! ## Code as a list of instructions -/

/-- An operation and its operand. -/
abbrev Operation := Opcode × Nat

def Operation.instruction (operation : Operation) : Instruction :=
  operation.1.instruction operation.2

def offsetsFrom (start : Nat) : List Operation → List Nat
  | [] => []
  | operation :: rest => start :: offsetsFrom (start + operation.1.size) rest

def room : List Opcode → Nat
  | [] => 0
  | opcode :: rest => opcode.size + room rest

theorem length_assemble (operations : List Operation) :
    (assemble operations).length = room (operations.map Prod.fst) := by
  induction operations with
  | nil => rfl
  | cons operation rest ih => simp [room, ih]

theorem offsetsFrom_append (start : Nat) (front back : List Operation) :
    offsetsFrom start (front ++ back) =
      offsetsFrom start front ++ offsetsFrom (start + (assemble front).length) back := by
  induction front generalizing start with
  | nil => simp [offsetsFrom]
  | cons operation rest ih => simp [offsetsFrom, ih, Nat.add_assoc]

theorem offsetsFrom_congr {others : List Operation}
    (same : operations.map Prod.fst = others.map Prod.fst) (start : Nat) :
    offsetsFrom start operations = offsetsFrom start others := by
  induction operations generalizing others start with
  | nil =>
    cases others with
    | nil => rfl
    | cons other rest => cases same
  | cons operation rest ih =>
    cases others with
    | nil => cases same
    | cons other rest' =>
      simp only [List.map_cons, List.cons.injEq] at same
      rw [offsetsFrom, offsetsFrom, same.1, ih same.2]

/-- Whether a distance is missing there. -/
def Hole (operations : List Operation) (jump : Nat) : Prop :=
  ∃ front opcode back, operations.map Prod.fst = front ++ opcode :: back ∧
    opcode ∈ forwardJumps ∧ jump = room front + 1

theorem Hole.mono {later : List Operation} {jump : Nat} (hole : Hole operations jump)
    (grown : operations.map Prod.fst <+: later.map Prod.fst) : Hole later jump := by
  rcases hole with ⟨front, opcode, back, opcodesEq, forward, jumpEq⟩
  rcases grown with ⟨more, laterEq⟩
  refine ⟨front, opcode, back ++ more, ?_, forward, jumpEq⟩
  rw [← laterEq, opcodesEq, List.append_assoc, List.cons_append]

theorem Hole.of_last (operations : List Operation) (distance : Nat)
    (forward : opcode ∈ forwardJumps) :
    Hole (operations ++ [(opcode, distance)]) ((assemble operations).length + 1) :=
  ⟨operations.map Prod.fst, opcode, [], by simp, forward, by rw [length_assemble]⟩

theorem Hole.exists_operation {jump : Nat} (hole : Hole operations jump) :
    ∃ front opcode distance back, operations = front ++ (opcode, distance) :: back ∧
      opcode ∈ forwardJumps ∧ jump = (assemble front).length + 1 := by
  rcases hole with ⟨opcodes, opcode, rest, opcodesEq, forward, jumpEq⟩
  rcases List.map_eq_append_iff.mp opcodesEq with ⟨front, tail, rfl, rfl, tailEq⟩
  rcases List.map_eq_cons_iff.mp tailEq with ⟨⟨_, distance⟩, back, rfl, rfl, _⟩
  exact ⟨front, _, distance, back, rfl, forward, by rw [length_assemble]; exact jumpEq⟩

theorem placeless_of_forward (forward : opcode ∈ forwardJumps) (operand : Nat) :
    (opcode.instruction operand).Placeless := by
  simp only [forwardJumps, List.mem_cons, List.not_mem_nil, or_false] at forward
  rcases forward with rfl | rfl <;> exact ⟨rfl, rfl⟩

namespace Draft

variable {draft : Draft} {name : String} {place : UInt8}

structure Laid (draft : Draft) (operations : List Operation) : Prop where
  code_eq : draft.chunk.code.toList = assemble operations
  starts_eq : draft.chunk.starts.toList = offsetsFrom 0 operations
  fits : ∀ operation ∈ operations, operation.2 < Nat.pow 256 operation.1.operandSize
  breaks : ∀ scope ∈ draft.scopes, ∀ jump ∈ scope.breaks, Hole operations jump

namespace Laid

variable {draft : Draft} {operations : List Operation} {opcode : Opcode}

theorem size_eq (laid : draft.Laid operations) :
    draft.chunk.size = (assemble operations).length := by
  rw [← laid.code_eq, Array.length_toList]
  rfl

theorem write {operand : Nat} (laid : draft.Laid operations)
    (small : operand < Nat.pow 256 opcode.operandSize) (line : Nat) :
    (draft.write opcode operand line).Laid (operations ++ [(opcode, operand)]) where
  code_eq := by simp [Draft.write, Chunk.write, laid.code_eq]
  starts_eq := by
    simp [Draft.write, Chunk.write, offsetsFrom_append, offsetsFrom, laid.starts_eq, laid.size_eq]
  fits operation present := by
    rcases List.mem_append.mp present with earlier | last
    · exact laid.fits operation earlier
    · rw [List.mem_singleton.mp last]
      exact small
  breaks scope present jump left := (laid.breaks scope present jump left).mono (by simp)

theorem patch {front back : List Operation} {distance word : Nat}
    (laid : draft.Laid (front ++ (opcode, distance) :: back)) (wide : opcode.operandSize = 2)
    (small : word < 65536) :
    (draft.patch ((assemble front).length + 1) word).Laid (front ++ (opcode, word) :: back) where
  code_eq := by
    have codeEq := laid.code_eq
    simp only [assemble_append, assemble_cons, Opcode.bytes, Opcode.operandBytes, wide,
      List.cons_append, List.nil_append] at codeEq ⊢
    simp only [Draft.patch, Chunk.patchWord, Array.toList_setIfInBounds, codeEq]
    rw [List.set_append_right _ _ (by omega), List.set_append_right _ _ (by omega)]
    simp only [Nat.add_assoc, Nat.add_sub_cancel_left]
    rfl
  starts_eq := by
    rw [offsetsFrom_congr (by simp : _ = (front ++ (opcode, distance) :: back).map Prod.fst)]
    exact laid.starts_eq
  fits operation present := by
    rcases List.mem_append.mp present with inFront | behind
    · exact laid.fits operation (List.mem_append_left _ inFront)
    · rcases List.mem_cons.mp behind with rfl | inBack
      · rw [wide]
        exact small
      · exact laid.fits operation (List.mem_append_right _ (List.mem_cons_of_mem _ inBack))
  breaks scope present jump left := (laid.breaks scope present jump left).mono (by simp)

theorem filterMap_instructionAt? {chunk : Chunk Constant} (front : List UInt8)
    (fits : ∀ operation ∈ operations, operation.2 < Nat.pow 256 operation.1.operandSize)
    (codeEq : chunk.code.toList = front ++ assemble operations) :
    (offsetsFrom front.length operations).filterMap chunk.instructionAt? =
      operations.map Operation.instruction := by
  induction operations generalizing front with
  | nil => rfl
  | cons operation rest ih =>
    rw [assemble_cons, ← List.append_assoc] at codeEq
    have reads : Instruction.decode chunk.code front.length = .found operation.instruction := by
      apply Instruction.decode_of_stands (fits operation List.mem_cons_self)
      intro place byte found
      have inside := (List.getElem?_eq_some_iff.mp found).1
      rw [← Array.getElem?_toList, codeEq, List.append_assoc,
        List.getElem?_append_right (by omega), Nat.add_sub_cancel_left,
        List.getElem?_append_left inside]
      exact found
    have onward := ih (front ++ operation.1.bytes operation.2)
      (fun other present => fits other (List.mem_cons_of_mem _ present)) codeEq
    rw [List.length_append, Opcode.length_bytes] at onward
    rw [offsetsFrom, List.filterMap_cons, Chunk.instructionAt?, reads, onward, List.map_cons]

theorem instructions_eq (laid : draft.Laid operations) :
    draft.chunk.instructions = operations.map Operation.instruction := by
  rw [Chunk.instructions, laid.starts_eq]
  exact filterMap_instructionAt? [] laid.fits laid.code_eq

end Laid

/-! ## Places in the pool -/

/-- Whether a place belongs to a name. -/
def Interns (draft : Draft) (place : Nat) : Prop :=
  ∃ (name : String) (index : UInt8), draft.names[name]? = some index ∧ index.toNat = place

theorem getElem?_remember (fresh : draft.names[name]? = none) (other : String) (index : UInt8) :
    (draft.remember name place).names[other]? = some index ↔
      (other = name ∧ index = place) ∨ draft.names[other]? = some index := by
  simp only [Draft.remember, Std.TreeMap.getElem?_insert]
  split
  · next same =>
    rw [← Std.LawfulEqCmp.compare_eq_iff_eq.mp same, fresh]
    simp [eq_comm]
  · next different =>
    have other : other ≠ name := fun same => different (by simp [same])
    simp [other]

theorem interns_remember (fresh : draft.names[name]? = none) (index : Nat) :
    (draft.remember name place).Interns index ↔ index = place.toNat ∨ draft.Interns index := by
  simp only [Interns, getElem?_remember fresh]
  constructor
  · rintro ⟨other, index, ⟨_, rfl⟩ | before, rfl⟩
    · exact Or.inl rfl
    · exact Or.inr ⟨other, index, before, rfl⟩
  · rintro (rfl | ⟨other, index, before, rfl⟩)
    · exact ⟨name, place, Or.inl ⟨rfl, rfl⟩, rfl⟩
    · exact ⟨other, index, Or.inr before, rfl⟩

def globalsOf (operations : List Operation) : List Nat :=
  operations.filterMap (·.instruction.globalPlace?)

def loadsOf (operations : List Operation) : List Nat :=
  operations.filterMap (·.instruction.loadedPlace?)

/-- Whether the pool of a draft has what these operations refer to and the pending names. -/
structure Stocked (draft : Draft) (operations : List Operation) (pending : List Nat) : Prop where
  names_eq : ∀ (name : String) (place : UInt8), draft.names[name]? = some place →
    draft.chunk.Names place.toNat name
  booked : ∀ constant ∈ draft.chunk.constants, Constant.Holds Function.Booked constant
  loads_nodup : (loadsOf operations).Nodup
  mem_loads : ∀ place, place ∈ loadsOf operations ↔
    place < draft.chunk.constants.size ∧ ¬draft.Interns place
  mem_globals : ∀ place, place ∈ globalsOf operations ++ pending ↔ draft.Interns place

namespace Stocked

variable {draft : Draft} {operations : List Operation} {pending : List Nat} {constant : Constant}

variable (stocked : draft.Stocked operations pending)
include stocked

theorem lt_of_interns {place : Nat} (interned : draft.Interns place) :
    place < draft.chunk.constants.size := by
  rcases interned with ⟨name, index, known, rfl⟩
  exact (Array.getElem?_eq_some_iff.mp (stocked.names_eq name index known)).1

theorem change {draft' : Draft} {operations' : List Operation} {pending' : List Nat}
    (constantsEq : draft'.chunk.constants = draft.chunk.constants)
    (namesEq : draft'.names = draft.names) (loadsEq : loadsOf operations' = loadsOf operations)
    (globalsEq : ∀ place, place ∈ globalsOf operations' ++ pending' ↔
      place ∈ globalsOf operations ++ pending) : draft'.Stocked operations' pending' where
  names_eq name place known := by
    rw [Chunk.Names, constantsEq]
    rw [namesEq] at known
    exact stocked.names_eq name place known
  booked := by
    rw [constantsEq]
    exact stocked.booked
  loads_nodup := by
    rw [loadsEq]
    exact stocked.loads_nodup
  mem_loads place := by
    simp only [loadsEq, constantsEq, Interns, namesEq]
    exact stocked.mem_loads place
  mem_globals place := by
    simp only [globalsEq, Interns, namesEq]
    exact stocked.mem_globals place

theorem booked_push (booked : constant.Holds Function.Booked) :
    ∀ other ∈ draft.chunk.constants.push constant, Constant.Holds Function.Booked other := by
  intro other present
  rcases Array.mem_push.mp present with earlier | rfl
  · exact stocked.booked other earlier
  · exact booked

theorem load (booked : constant.Holds Function.Booked) (line : Nat) :
    ((draft.pool constant).write .constant draft.chunk.constants.size line).Stocked
      (operations ++ [(.constant, draft.chunk.constants.size)]) pending where
  names_eq name place known := by
    have found := stocked.names_eq name place known
    have bound := (Array.getElem?_eq_some_iff.mp found).1
    simp only [Chunk.Names, Draft.write, Chunk.constants_write, Draft.pool, Array.getElem?_push]
    rw [if_neg (by omega)]
    exact found
  booked := stocked.booked_push booked
  loads_nodup := by
    have fresh : draft.chunk.constants.size ∉ loadsOf operations := fun present =>
      Nat.lt_irrefl _ ((stocked.mem_loads _).mp present).1
    rw [loadsOf, List.filterMap_append]
    exact List.nodup_append.mpr ⟨stocked.loads_nodup, by simp [Operation.instruction,
      Opcode.instruction, Instruction.loadedPlace?], by
        simp only [Operation.instruction, Opcode.instruction, Instruction.loadedPlace?,
          List.filterMap_cons, List.filterMap_nil, List.mem_singleton]
        rintro place present _ rfl rfl
        exact fresh present⟩
  mem_loads place := by
    have sameNames : ((draft.pool constant).write .constant draft.chunk.constants.size
        line).Interns place ↔ draft.Interns place := Iff.rfl
    have sizeEq : ((draft.pool constant).write .constant draft.chunk.constants.size
        line).chunk.constants.size = draft.chunk.constants.size + 1 := by
      simp [Draft.write, Draft.pool]
    have added : loadsOf (operations ++ [(.constant, draft.chunk.constants.size)]) =
        loadsOf operations ++ [draft.chunk.constants.size] := by
      simp [loadsOf, Operation.instruction, Opcode.instruction, Instruction.loadedPlace?]
    have below := fun interned : draft.Interns place => stocked.lt_of_interns interned
    rw [sameNames, sizeEq, added, List.mem_append, List.mem_singleton, stocked.mem_loads]
    constructor
    · rintro (⟨inside, free⟩ | rfl)
      · exact ⟨by omega, free⟩
      · exact ⟨by omega, fun interned => Nat.lt_irrefl _ (below interned)⟩
    · rintro ⟨inside, free⟩
      by_cases last : place = draft.chunk.constants.size
      · exact Or.inr last
      · exact Or.inl ⟨by omega, free⟩
  mem_globals place := by
    have unchanged : globalsOf (operations ++ [(.constant, draft.chunk.constants.size)]) =
        globalsOf operations := by
      simp [globalsOf, Operation.instruction, Opcode.instruction, Instruction.globalPlace?]
    rw [unchanged]
    exact stocked.mem_globals place

theorem intern {name : String} {place : UInt8} (fresh : draft.names[name]? = none)
    (placeEq : place.toNat = draft.chunk.constants.size) :
    ((draft.pool (.string name)).remember name place).Stocked operations
      (place.toNat :: pending) := by
  have interns (index : Nat) : ((draft.pool (.string name)).remember name place).Interns index ↔
      index = place.toNat ∨ draft.Interns index :=
    interns_remember (show (draft.pool (.string name)).names[name]? = none from fresh) index
  refine ⟨?_, stocked.booked_push trivial, stocked.loads_nodup, ?_, ?_⟩
  · intro other index found
    rcases (getElem?_remember fresh other index).mp found with ⟨rfl, rfl⟩ | before
    · simp [Chunk.Names, Draft.remember, Draft.pool, placeEq]
    · have held := stocked.names_eq other index before
      have bound := (Array.getElem?_eq_some_iff.mp held).1
      simp only [Chunk.Names, Draft.remember, Draft.pool, Array.getElem?_push]
      rw [if_neg (by omega)]
      exact held
  · intro index
    have sizeEq : ((draft.pool (.string name)).remember name place).chunk.constants.size =
        draft.chunk.constants.size + 1 := by
      simp [Draft.remember, Draft.pool]
    rw [interns, sizeEq, stocked.mem_loads, placeEq, not_or]
    constructor
    · rintro ⟨inside, free⟩
      exact ⟨by omega, by omega, free⟩
    · rintro ⟨inside, other, free⟩
      exact ⟨by omega, free⟩
  · intro index
    rw [interns, ← stocked.mem_globals]
    simp only [List.mem_append, List.mem_cons]
    tauto

end Stocked

/-- Whether operations have lines, and a function is loaded on the line on which it ends. -/
structure Lined (draft : Draft) (operations : List Operation) : Prop where
  lines_size : draft.chunk.lines.size = operations.length
  loaded : ∀ (index place : Nat) (function : Function),
    operations[index]? = some (.constant, place) →
    draft.chunk.constants[place]? = some (.function function) →
    draft.chunk.lines[index]? = function.chunk.lines.back?

namespace Lined

variable {draft draft' : Draft} {operations : List Operation}

theorem change (lined : draft.Lined operations) {later : List Operation}
    (linesEq : draft'.chunk.lines = draft.chunk.lines) (lengthEq : later.length = operations.length)
    (same : ∀ (index place : Nat) (function : Function), later[index]? = some (.constant, place) →
      draft'.chunk.constants[place]? = some (.function function) →
      operations[index]? = some (.constant, place) ∧
        draft.chunk.constants[place]? = some (.function function)) :
    draft'.Lined later where
  lines_size := by rw [linesEq, lined.lines_size, lengthEq]
  loaded index place function loads held := by
    rcases same index place function loads held with ⟨loadsToo, heldToo⟩
    rw [linesEq]
    exact lined.loaded index place function loadsToo heldToo

theorem write (lined : draft.Lined operations) {opcode : Opcode} {operand line : Nat}
    (linesEq : draft'.chunk.lines = draft.chunk.lines.push line)
    (same : ∀ index place : Nat, operations[index]? = some (.constant, place) →
      draft'.chunk.constants[place]? = draft.chunk.constants[place]?)
    (ended : opcode = .constant → ∀ function : Function,
      draft'.chunk.constants[operand]? = some (.function function) →
      function.chunk.lines.back? = some line) :
    draft'.Lined (operations ++ [(opcode, operand)]) where
  lines_size := by simp [linesEq, lined.lines_size]
  loaded index place function loads held := by
    rw [linesEq, Array.getElem?_push, lined.lines_size]
    rcases Nat.lt_trichotomy index operations.length with inside | rfl | beyond
    · rw [List.getElem?_append_left inside] at loads
      rw [if_neg (Nat.ne_of_lt inside)]
      exact lined.loaded index place function loads (same index place loads ▸ held)
    · simp only [List.getElem?_concat_length, Option.some.injEq, Prod.mk.injEq] at loads
      rcases loads with ⟨isLoad, rfl⟩
      rw [if_pos rfl, ended isLoad function held]
    · rw [List.getElem?_eq_none (by simp; omega)] at loads
      cases loads

end Lined

/-- What holds of a function that is being written, with some of its names pending. -/
structure Kept (draft : Draft) (operations : List Operation) (pending : List Nat) : Prop
    extends draft.Laid operations, draft.Stocked operations pending, draft.Lined operations

namespace Kept

variable {draft draft' : Draft} {operations : List Operation} {pending : List Nat} {name : String}
  {opcode : Opcode} {place : UInt8}

theorem reframe (kept : draft.Kept operations pending) (chunkEq : draft'.chunk = draft.chunk)
    (namesEq : draft'.names = draft.names)
    (breaks : ∀ scope ∈ draft'.scopes, ∀ jump ∈ scope.breaks, Hole operations jump) :
    draft'.Kept operations pending where
  code_eq := by
    rw [chunkEq]
    exact kept.code_eq
  starts_eq := by
    rw [chunkEq]
    exact kept.starts_eq
  fits := kept.fits
  breaks := breaks
  toStocked := kept.toStocked.change (by rw [chunkEq]) namesEq rfl fun _ => Iff.rfl
  toLined := kept.toLined.change (by rw [chunkEq]) rfl (by rw [chunkEq]; exact fun _ _ _ => .intro)

theorem lt_of_loads (kept : draft.Kept operations pending) {index place : Nat}
    (loads : operations[index]? = some (.constant, place)) :
    place < draft.chunk.constants.size :=
  ((kept.mem_loads place).mp (List.mem_filterMap.mpr ⟨_, List.mem_of_getElem? loads, rfl⟩)).1

theorem write {operand : Nat} (kept : draft.Kept operations pending)
    (small : operand < Nat.pow 256 opcode.operandSize)
    (placeless : (opcode.instruction operand).Placeless) (line : Nat) :
    (draft.write opcode operand line).Kept (operations ++ [(opcode, operand)]) pending where
  toLaid := kept.toLaid.write small line
  toStocked := by
    refine kept.toStocked.change rfl rfl ?_ ?_
    · simp [loadsOf, Operation.instruction, placeless.1]
    · simp [globalsOf, Operation.instruction, placeless.2]
  toLined := kept.toLined.write rfl (fun _ _ _ => rfl) (by
    rintro rfl
    cases placeless.1)

theorem access {place : Nat} (kept : draft.Kept operations (place :: pending))
    (small : place < Nat.pow 256 opcode.operandSize)
    (loadsNone : (opcode.instruction place).loadedPlace? = none)
    (accesses : (opcode.instruction place).globalPlace? = some place) (line : Nat) :
    (draft.write opcode place line).Kept (operations ++ [(opcode, place)]) pending where
  toLaid := kept.toLaid.write small line
  toStocked := by
    refine kept.toStocked.change rfl rfl ?_ ?_
    · simp [loadsOf, Operation.instruction, loadsNone]
    · simp [globalsOf, Operation.instruction, accesses]
  toLined := kept.toLined.write rfl (fun _ _ _ => rfl) (by
    rintro rfl
    cases loadsNone)

section

variable (kept : draft.Kept operations pending)
include kept

theorem load {constant : Constant} (booked : constant.Holds Function.Booked) {line : Nat}
    (ended : constant.Holds fun function => function.chunk.lines.back? = some line)
    (room : draft.chunk.constants.size < 256) :
    ((draft.pool constant).write .constant draft.chunk.constants.size line).Kept
      (operations ++ [(.constant, draft.chunk.constants.size)]) pending where
  toLaid := by
    have pooled : (draft.pool constant).Laid operations :=
      ⟨kept.code_eq, kept.starts_eq, kept.fits, kept.breaks⟩
    exact pooled.write room line
  toStocked := kept.toStocked.load booked line
  toLined := by
    refine kept.toLined.write rfl (fun index place loads => ?_) (fun _ function held => ?_)
    · have inside := kept.lt_of_loads loads
      simp only [Draft.write, Chunk.constants_write, Draft.pool, Array.getElem?_push]
      rw [if_neg (Nat.ne_of_lt inside)]
    · have isFunction : constant = .function function := by
        simpa [Draft.write, Draft.pool] using held
      rw [isFunction] at ended
      exact ended

theorem intern (fresh : draft.names[name]? = none)
    (placeEq : place.toNat = draft.chunk.constants.size) :
    ((draft.pool (.string name)).remember name place).Kept operations (place.toNat :: pending) where
  toLaid := ⟨kept.code_eq, kept.starts_eq, kept.fits, kept.breaks⟩
  toStocked := kept.toStocked.intern fresh placeEq
  toLined := kept.toLined.change rfl rfl fun index other function loads held => by
    have inside := kept.lt_of_loads loads
    simp only [Draft.remember, Draft.pool, Array.getElem?_push] at held
    rw [if_neg (Nat.ne_of_lt inside)] at held
    exact ⟨loads, held⟩

theorem reuse (known : draft.names[name]? = some place) :
    draft.Kept operations (place.toNat :: pending) where
  toLaid := kept.toLaid
  toStocked := by
    apply kept.toStocked.change rfl rfl rfl
    intro index
    have interned := (kept.mem_globals place.toNat).mpr ⟨name, place, known, rfl⟩
    simp only [List.mem_append, List.mem_cons] at interned ⊢
    constructor
    · rintro (inCode | rfl | waiting)
      · exact Or.inl inCode
      · exact interned
      · exact Or.inr waiting
    · rintro (inCode | waiting)
      · exact Or.inl inCode
      · exact Or.inr (Or.inr waiting)
  toLined := kept.toLined

theorem patch {jump word : Nat} (hole : Hole operations jump) (small : word < 65536) :
    ∃ later, (draft.patch jump word).Kept later pending ∧
      operations.map Prod.fst <+: later.map Prod.fst := by
  rcases hole.exists_operation with ⟨front, opcode, distance, back, rfl, forward, rfl⟩
  have before := placeless_of_forward forward distance
  have filled := placeless_of_forward forward word
  refine ⟨front ++ (opcode, word) :: back, ⟨kept.toLaid.patch (wide_of_forward forward) small,
    ?_, ?_⟩,
    by simp⟩
  · refine kept.toStocked.change rfl rfl ?_ ?_
    · simp [loadsOf, Operation.instruction, before.1, filled.1]
    · simp [globalsOf, Operation.instruction, before.2, filled.2]
  · refine kept.toLined.change rfl (by simp) fun index place function loads held => ⟨?_, held⟩
    rw [List.getElem?_append] at loads ⊢
    split
    · next inFront => rwa [if_pos inFront] at loads
    · next beyond =>
      rw [if_neg beyond] at loads
      cases behind : index - front.length with
      | succ _ =>
        rw [behind] at loads
        exact loads
      | zero =>
        rw [behind] at loads
        cases loads
        simp [forwardJumps] at forward

theorem globalPlaces_eq : draft.chunk.globalPlaces = globalsOf operations := by
  rw [Chunk.globalPlaces, kept.instructions_eq, List.filterMap_map]
  rfl

theorem loadedPlaces_eq : draft.chunk.loadedPlaces = loadsOf operations := by
  rw [Chunk.loadedPlaces, kept.instructions_eq, List.filterMap_map]
  rfl

end

theorem mem_globalPlaces (kept : draft.Kept operations []) (place : Nat) :
    place ∈ draft.chunk.globalPlaces ↔ draft.Interns place := by
  rw [kept.globalPlaces_eq, ← kept.mem_globals, List.append_nil]

theorem mem_loadedPlaces (kept : draft.Kept operations pending) (place : Nat) :
    place ∈ draft.chunk.loadedPlaces ↔
      place < draft.chunk.constants.size ∧ ¬draft.Interns place := by
  rw [kept.loadedPlaces_eq, kept.mem_loads]

/-- What is finished makes exact use of its pool, and has lines. -/
theorem booked_function (kept : draft.Kept operations []) : draft.function.Booked := by
  refine .mk ⟨⟨?_, ?_, ?_, ?_⟩, ⟨?_, ?_⟩⟩ ?_
  · change draft.chunk.loadedPlaces.Nodup
    rw [kept.loadedPlaces_eq]
    exact kept.loads_nodup
  · intro place
    rw [Draft.function, kept.mem_loadedPlaces, kept.mem_globalPlaces]
  · intro place present
    rcases (kept.mem_globalPlaces place).mp present with ⟨name, index, known, rfl⟩
    exact ⟨name, kept.names_eq name index known⟩
  · intro place present other presentToo name isName isNameToo
    rcases (kept.mem_globalPlaces place).mp present with ⟨first, index, known, rfl⟩
    rcases (kept.mem_globalPlaces other).mp presentToo with ⟨second, index', known', rfl⟩
    obtain rfl : first = name := by
      simpa using (kept.names_eq first index known).symm.trans isName
    obtain rfl : second = first := by
      simpa using (kept.names_eq second index' known').symm.trans isNameToo
    rw [known] at known'
    cases known'
    rfl
  · rw [Draft.function, kept.instructions_eq, List.length_map, kept.lines_size]
  · intro index place function loads held
    rw [Draft.function, kept.instructions_eq, List.getElem?_map, Option.map_eq_some_iff] at loads
    rcases loads with ⟨⟨opcode, operand⟩, found, isLoad⟩
    cases opcode <;> cases isLoad
    exact kept.loaded index operand function found held
  · intro place other held
    exact kept.booked (.function other) (Array.mem_of_getElem? held)

end Kept

theorem kept_of_empty (chunkEq : draft.chunk = .empty) (namesEq : draft.names = ∅)
    (noBreaks : ∀ scope ∈ draft.scopes, scope.breaks = []) : draft.Kept [] [] where
  code_eq := by rw [chunkEq]; rfl
  starts_eq := by rw [chunkEq]; rfl
  fits _ present := absurd present List.not_mem_nil
  breaks scope present jump left := by
    rw [noBreaks scope present] at left
    exact absurd left List.not_mem_nil
  names_eq name place known := by
    rw [namesEq] at known
    simp at known
  booked constant present := by simp [chunkEq, Chunk.empty] at present
  loads_nodup := List.nodup_nil
  mem_loads place := by simp [chunkEq, loadsOf, Chunk.empty]
  mem_globals place := by simp [globalsOf, Interns, namesEq]
  lines_size := by rw [chunkEq]; rfl
  loaded _ _ _ loads := by simp at loads

end Draft

end StackScript
