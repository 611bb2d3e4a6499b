import StackScript.Proofs.Inventory
import StackScript.Proofs.Orders
import StackScript.Proofs.Safety

/-!
# Machines side by side

Two machines that run the same code, but for places in pools and for where the outermost code
stands. Their values agree but for the lines of functions and for which objects functions are. A
step of one is a step of the other.
-/

namespace StackScript

open Exec

/-- Whether a relation between functions by their identity is one-to-one and is kept by loading. -/
structure Faithful (same : Origin → Origin → Prop) : Prop where
  one_to_one : ∀ {first second other another : Origin}, same first other → same second another →
    (first = second ↔ other = another)
  inside : ∀ {first other : Origin} (place : Nat), same first other →
    same ⟨first.run, place :: first.path⟩ ⟨other.run, place :: other.path⟩

/-- Whether two loaded functions differ in their lines and in their identity only. -/
structure Callable.Twin (same : Origin → Origin → Prop) (left right : Callable) : Prop where
  alike : left.function.Alike right.function
  same_origin : same left.origin right.origin

/-- Whether two values are the same. -/
abbrev Value.Twin (same : Origin → Origin → Prop) : Value → Value → Prop :=
  Datum.Like (Callable.Twin same)

variable {same : Origin → Origin → Prop} {callers outer : List Frame} {instruction : Instruction}
  {track : Track} {left right : Function} {other : Value}

theorem Function.Alike.name_eq (alike : left.Alike right) : left.name = right.name := by
  cases alike with
  | mk nameEq => exact nameEq

theorem Function.Alike.arity_eq (alike : left.Alike right) : left.arity = right.arity := by
  cases alike with
  | mk _ arityEq => exact arityEq

/-! ## Values -/

namespace Value.Twin

variable {left right first second : Value}

theorem isFalsey_eq (twin : Value.Twin same left right) : left.isFalsey = right.isFalsey := by
  cases twin <;> rfl

theorem display_eq (twin : Value.Twin same left right) :
    Value.display left = Value.display right := by
  cases twin with
  | function callables =>
    simp [Value.display, Datum.display, Function.display, Function.isScript,
      callables.alike.name_eq]
  | _ => rfl

theorem same_eq (faithful : Faithful same) (twin : Value.Twin same left right)
    (twinToo : Value.Twin same first second) : Value.same left first = Value.same right second := by
  cases twin <;> cases twinToo
  case function.function callables _ _ others =>
    simp only [Value.same]
    rw [Bool.eq_iff_iff, beq_iff_eq, beq_iff_eq]
    exact faithful.one_to_one callables.same_origin others.same_origin
  all_goals rfl

end Value.Twin

def SameResult (same : Origin → Origin → Prop) : Except Fault Value → Except Fault Value → Prop
  | .ok value, .ok other => Value.Twin same value other
  | .error fault, .error other => fault = other
  | _, _ => False

theorem unary_sameResult {operation : Value → Except Fault Value} {operand : Value}
    (computes : unary? instruction = some operation) (twin : Value.Twin same operand other) :
    SameResult same (operation operand) (operation other) := by
  cases instruction <;> cases computes
  case negate =>
    cases twin
    case number => exact .number _
    all_goals rfl
  case logicalNot =>
    rw [SameResult, twin.isFalsey_eq]
    exact .bool _

theorem binary_sameResult (faithful : Faithful same)
    {operation : Value → Value → Except Fault Value} {left right another : Value}
    (computes : binary? instruction = some operation) (twin : Value.Twin same left other)
    (twinToo : Value.Twin same right another) :
    SameResult same (operation left right) (operation other another) := by
  cases instruction <;> cases computes
  case add =>
    cases twin <;> cases twinToo
    case number.number => exact .number _
    case string.string => exact .string _
    all_goals rfl
  case equal =>
    rw [SameResult, twin.same_eq faithful twinToo]
    exact .bool _
  all_goals
    cases twin <;> cases twinToo
    case number.number => constructor
    all_goals rfl

theorem Callable.Twin.load {holder other : Callable} {entry constant : Constant}
    (faithful : Faithful same) (twin : Callable.Twin same holder other)
    (alike : Constant.Alike entry constant) (place : Nat) :
    Value.Twin same (holder.load place entry) (other.load place constant) := by
  cases alike with
  | function alike => exact .function ⟨alike, faithful.inside place twin.same_origin⟩
  | _ => constructor

/-! ## Stacks -/

/-- Whether two stacks hold the same values. The script at the bottom is never read. -/
structure StackTwin (same : Origin → Origin → Prop) (left right : Array Value) : Prop where
  size_eq : right.size = left.size
  above : ∀ place, 0 < place → Option.Rel (Value.Twin same) left[place]? right[place]?

namespace StackTwin

variable {left right : Array Value} {value other : Value}

theorem push (twin : StackTwin same left right) (values : Value.Twin same value other) :
    StackTwin same (left.push value) (right.push other) := by
  refine ⟨by simp [twin.size_eq], ?_⟩
  intro place positive
  rw [Array.getElem?_push, Array.getElem?_push, twin.size_eq]
  split
  · exact .some values
  · exact twin.above place positive

theorem pop (twin : StackTwin same (left.push value) right) (positive : 0 < left.size) :
    ∃ rest other, right = rest.push other ∧ StackTwin same left rest ∧
      Value.Twin same value other := by
  have sized := twin.size_eq
  rw [Array.size_push] at sized
  rcases Array.eq_push_of_size_ne_zero (show right.size ≠ 0 by omega) with ⟨rest, other, rfl⟩
  rw [Array.size_push] at sized
  have restSize : rest.size = left.size := Nat.succ.inj sized
  refine ⟨rest, other, rfl, ⟨restSize, ?_⟩, ?_⟩
  · intro place above
    have related := twin.above place above
    rw [Array.getElem?_push, Array.getElem?_push, restSize] at related
    split at related
    · next atTop =>
      rw [Array.getElem?_eq_none (by omega), Array.getElem?_eq_none (by omega)]
      exact .none
    · exact related
  · have related := twin.above left.size positive
    rw [Array.getElem?_push, Array.getElem?_push, restSize, if_pos rfl, if_pos rfl] at related
    cases related with
    | some values => exact values

theorem exists_top (twin : StackTwin same left right) (two : 1 < left.size) :
    ∃ rest value others other, left = rest.push value ∧ right = others.push other ∧
      StackTwin same rest others ∧ Value.Twin same value other := by
  rcases Array.eq_push_of_size_ne_zero (show left.size ≠ 0 by omega) with ⟨rest, value, rfl⟩
  rw [Array.size_push] at two
  rcases twin.pop (Nat.lt_of_succ_lt_succ two) with ⟨others, other, rightEq, below, values⟩
  exact ⟨rest, value, others, other, rfl, rightEq, below, values⟩

theorem get {place : Nat} (twin : StackTwin same left right) (positive : 0 < place)
    (held : left[place]? = some value) :
    ∃ other, right[place]? = some other ∧ Value.Twin same value other := by
  have related := twin.above place positive
  rw [held] at related
  generalize right[place]? = found at related
  cases related with
  | some values => exact ⟨_, rfl, values⟩

theorem set (twin : StackTwin same left right) (values : Value.Twin same value other)
    (place : Nat) :
    StackTwin same (left.setIfInBounds place value) (right.setIfInBounds place other) := by
  refine ⟨by simp [twin.size_eq], ?_⟩
  intro other positive
  rw [Array.getElem?_setIfInBounds, Array.getElem?_setIfInBounds, twin.size_eq]
  split
  · split
    · exact .some values
    · exact .none
  · exact twin.above other positive

theorem shrink (twin : StackTwin same left right) (size : Nat) :
    StackTwin same (left.shrink size) (right.shrink size) := by
  refine ⟨by simp [twin.size_eq], ?_⟩
  intro place positive
  simp only [Array.shrink_eq_take, Array.take_eq_extract, Array.getElem?_extract, Nat.zero_add,
    Nat.sub_zero, twin.size_eq]
  split
  · exact twin.above place positive
  · exact .none

end StackTwin

/-! ## Calls -/

/-- Two programs that run side by side, the code of the second one `shift` bytes further on. -/
structure Track where
  left : Callable
  right : Callable
  shift : Nat

/-- Whether the calls of two machines are the same, the innermost first. -/
inductive Track.Calls (track : Track) (same : Origin → Origin → Prop) :
    List Frame → List Frame → Prop where
  | program (ip : Nat) : Calls track same [⟨track.left, ip, 0⟩] [⟨track.right, ip + track.shift, 0⟩]
  | function {callee other : Callable} {callers outer : List Frame}
      (twin : Callable.Twin same callee other) (ip base : Nat)
      (below : Calls track same callers outer) :
      Calls track same (⟨callee, ip, base⟩ :: callers) (⟨other, ip, base⟩ :: outer)

theorem Track.Calls.length_eq (calls : track.Calls same callers outer) :
    outer.length = callers.length := by
  induction calls with
  | program => rfl
  | function _ _ _ _ ih => rw [List.length_cons, List.length_cons, ih]

/-- What the innermost of the same calls have in common: they stand `shift` bytes apart. -/
structure Track.Heads (track : Track) (same : Origin → Origin → Prop) (frame other : Frame)
    (callers outer : List Frame) (shift : Nat) : Prop where
  ip_eq : other.ip = frame.ip + shift
  base_eq : other.base = frame.base
  onward : ∀ next, track.Calls same ({ frame with ip := next } :: callers)
    ({ other with ip := next + shift } :: outer)
  back : callers = [] ∧ outer = [] ∨ track.Calls same callers outer

theorem Track.Heads.resumed {frame other : Frame} {shift : Nat}
    (heads : track.Heads same frame other callers outer shift) (next : Nat) :
    track.Heads same { frame with ip := next } { other with ip := next + shift } callers outer
      shift :=
  { heads with ip_eq := rfl }

theorem Track.heads_program (track : Track) (ip : Nat) :
    track.Heads same ⟨track.left, ip, 0⟩ ⟨track.right, ip + track.shift, 0⟩ [] [] track.shift :=
  ⟨rfl, rfl, .program, .inl ⟨rfl, rfl⟩⟩

theorem Track.Calls.heads_function {callee other : Callable}
    (below : track.Calls same callers outer) (twin : Callable.Twin same callee other)
    (ip base : Nat) : track.Heads same ⟨callee, ip, base⟩ ⟨other, ip, base⟩ callers outer 0 :=
  ⟨rfl, rfl, fun next => .function twin next base below, .inr below⟩

/-! ## Machines -/

namespace Machine

/-- Whether two machines have the same bounds, output and global variables. -/
structure SameStore (same : Origin → Origin → Prop) (left right : Machine) : Prop where
  config_eq : right.config = left.config
  sink_eq : right.sink = left.sink
  globals : ∀ name : String, Option.Rel (Value.Twin same) left.globals[name]? right.globals[name]?

/-- Whether two machines are in the same state. -/
structure Abreast (same : Origin → Origin → Prop) (track : Track) (left right : Machine) :
    Prop extends SameStore same left right where
  stack : StackTwin same left.stack right.stack
  calls : track.Calls same left.calls right.calls

def SameStep (same : Origin → Origin → Prop) (track : Track) :
    EStateM.Result Fault Machine (Option Value) → EStateM.Result Fault Machine (Option Value) →
      Prop
  | .ok none left, .ok none right => Abreast same track left right
  | .ok (some value) left, .ok (some other) right =>
    Value.Twin same value other ∧ SameStore same left right
  | .error fault left, .error other right => fault = other ∧ SameStore same left right
  | _, _ => False

variable {track : Track} {left right : Machine} {value other : Value}

theorem Abreast.withStack {stack others : Array Value} (abreast : Abreast same track left right)
    (twin : StackTwin same stack others) :
    Abreast same track { left with stack } { right with stack := others } :=
  ⟨⟨abreast.config_eq, abreast.sink_eq, abreast.globals⟩, twin, abreast.calls⟩

theorem Abreast.put (abreast : Abreast same track left right)
    (values : Value.Twin same value other) :
    SameStep same track (put value left) (put other right) := by
  rw [put_apply, put_apply, abreast.stack.size_eq, abreast.config_eq]
  split
  · exact ⟨⟨rfl, abreast.sink_eq, abreast.globals⟩, abreast.stack.push values, abreast.calls⟩
  · exact ⟨rfl, abreast.toSameStore⟩

theorem Abreast.settle {result another : Except Fault Value}
    (abreast : Abreast same track left right) (results : SameResult same result another) :
    SameStep same track (settleResult left result) (settleResult right another) := by
  cases result with
  | ok value =>
    cases another with
    | ok other => exact abreast.put results
    | error fault => exact results.elim
  | error fault =>
    cases another with
    | ok other => exact results.elim
    | error other => exact ⟨results, abreast.toSameStore⟩

theorem SameStore.insert (store : SameStore same left right) (values : Value.Twin same value other)
    (name key : String) :
    Option.Rel (Value.Twin same) (left.globals.insert name value)[key]?
      (right.globals.insert name other)[key]? := by
  rw [Std.TreeMap.getElem?_insert, Std.TreeMap.getElem?_insert]
  split
  · exact .some values
  · exact store.globals key

theorem SameStore.contains_eq (store : SameStore same left right) (name : String) :
    right.globals.contains name = left.globals.contains name := by
  have related := store.globals name
  rw [Std.TreeMap.contains_eq_isSome_getElem?, Std.TreeMap.contains_eq_isSome_getElem?]
  generalize left.globals[name]? = found at related
  generalize right.globals[name]? = foundToo at related
  cases related <;> rfl

theorem calls_resume {machine : Machine} {frame : Frame} {callers : List Frame}
    (running : machine.calls = frame :: callers) (ip : Nat) :
    (machine.resume frame ip).calls = { frame with ip } :: callers := by
  rw [calls_of_push (resume_frames ip), reverse_pop running]

section Instructions

variable {frame another : Frame} {callers outer : List Frame} {shift index place : Nat}
  {name : String} {instruction : Instruction}

theorem pop_isEmpty {machine : Machine} (running : machine.calls = frame :: callers) :
    machine.frames.pop.isEmpty = callers.isEmpty := by
  rw [← reverse_pop running, List.isEmpty_reverse, Array.isEmpty_toList]

variable (abreast : Abreast same track left right)
include abreast

theorem Abreast.unary {operation : Value → Except Fault Value}
    (computes : unary? instruction = some operation)
    (two : 1 < left.stack.size) :
    SameStep same track (execute instruction left) (execute instruction right) := by
  rcases abreast.stack.exists_top two with
    ⟨rest, operand, others, another, leftEq, rightEq, below, values⟩
  rw [execute_unary computes leftEq, execute_unary computes rightEq]
  exact (abreast.withStack below).settle (unary_sameResult computes values)

theorem Abreast.binary {operation : Value → Value → Except Fault Value}
    (faithful : Faithful same)
    (computes : binary? instruction = some operation) (three : 2 < left.stack.size) :
    SameStep same track (execute instruction left) (execute instruction right) := by
  rcases abreast.stack.exists_top (by omega) with
    ⟨upper, second, uppers, secondToo, leftEq, rightEq, above, seconds⟩
  rw [leftEq, Array.size_push] at three
  rcases above.exists_top (by omega) with ⟨rest, first, others, firstToo, rfl, rfl, below, firsts⟩
  rw [execute_binary computes leftEq, execute_binary computes rightEq]
  exact (abreast.withStack below).settle (binary_sameResult faithful computes firsts seconds)

theorem Abreast.print (two : 1 < left.stack.size) :
    SameStep same track (execute .print left) (execute .print right) := by
  rcases abreast.stack.exists_top two with
    ⟨rest, shown, others, shownToo, leftEq, rightEq, below, values⟩
  rw [execute_print leftEq, execute_print rightEq, abreast.sink_eq, values.display_eq]
  split
  · exact ⟨⟨abreast.config_eq, rfl, abreast.globals⟩, below, abreast.calls⟩
  · exact ⟨rfl, abreast.config_eq, rfl, abreast.globals⟩

theorem Abreast.pop (two : 1 < left.stack.size) :
    SameStep same track (execute .pop left) (execute .pop right) := by
  rcases abreast.stack.exists_top two with ⟨rest, _, others, _, leftEq, rightEq, below, _⟩
  rw [execute_pop leftEq, execute_pop rightEq]
  exact abreast.withStack below

/-! ### Variables -/

section

variable (innermost : left.frames.back? = some frame)
  (innermostToo : right.frames.back? = some another)
include innermost innermostToo

theorem Abreast.constant {entry twin : Constant} (held : frame.chunk.constants[place]? = some entry)
    (heldToo : another.chunk.constants[index]? = some twin)
    (values : Value.Twin same (frame.callee.load place entry) (another.callee.load index twin)) :
    SameStep same track (execute (.constant place) left) (execute (.constant index) right) := by
  rw [execute_constant innermost held, execute_constant innermostToo heldToo]
  exact abreast.put values

theorem Abreast.defineGlobal (named : frame.chunk.Names place name)
    (namedToo : another.chunk.Names index name) (two : 1 < left.stack.size) :
    SameStep same track (execute (.defineGlobal place) left)
      (execute (.defineGlobal index) right) := by
  rcases abreast.stack.exists_top two with ⟨rest, _, others, _, leftEq, rightEq, below, values⟩
  rw [execute_defineGlobal innermost named leftEq,
    execute_defineGlobal innermostToo namedToo rightEq]
  exact ⟨⟨abreast.config_eq, abreast.sink_eq, abreast.insert values name⟩, below, abreast.calls⟩

theorem Abreast.getGlobal (named : frame.chunk.Names place name)
    (namedToo : another.chunk.Names index name) :
    SameStep same track (execute (.getGlobal place) left) (execute (.getGlobal index) right) := by
  rw [execute_getGlobal innermost named, execute_getGlobal innermostToo namedToo]
  have related := abreast.globals name
  generalize left.globals[name]? = found at related
  generalize right.globals[name]? = foundToo at related
  cases related with
  | some values => exact abreast.put values
  | none => exact ⟨rfl, abreast.toSameStore⟩

theorem Abreast.setGlobal (named : frame.chunk.Names place name)
    (namedToo : another.chunk.Names index name) (two : 1 < left.stack.size) :
    SameStep same track (execute (.setGlobal place) left) (execute (.setGlobal index) right) := by
  rcases abreast.stack.exists_top two with ⟨rest, _, others, _, leftEq, rightEq, _, values⟩
  rw [execute_setGlobal innermost named leftEq,
    execute_setGlobal innermostToo namedToo rightEq, abreast.contains_eq]
  split
  · exact ⟨⟨abreast.config_eq, abreast.sink_eq, abreast.insert values name⟩, abreast.stack,
      abreast.calls⟩
  · exact ⟨rfl, abreast.toSameStore⟩

theorem Abreast.getLocal {slot : Nat} (baseEq : another.base = frame.base)
    (inside : frame.base + slot < left.stack.size) (above : 0 < frame.base + slot) :
    SameStep same track (execute (.getLocal slot) left) (execute (.getLocal slot) right) := by
  have held := Array.getElem?_eq_getElem inside
  rcases abreast.stack.get above held with ⟨found, heldToo, values⟩
  rw [← baseEq] at heldToo
  rw [execute_getLocal innermost held, execute_getLocal innermostToo heldToo]
  exact abreast.put values

theorem Abreast.setLocal {slot : Nat} (baseEq : another.base = frame.base)
    (inside : frame.base + slot < left.stack.size) (two : 1 < left.stack.size) :
    SameStep same track (execute (.setLocal slot) left) (execute (.setLocal slot) right) := by
  rcases abreast.stack.exists_top two with ⟨rest, _, others, _, leftEq, rightEq, _, values⟩
  have insideToo : another.base + slot < right.stack.size := by
    rw [baseEq, abreast.stack.size_eq]
    exact inside
  rw [execute_setLocal innermost inside leftEq,
    execute_setLocal innermostToo insideToo rightEq, baseEq]
  exact abreast.withStack (abreast.stack.set values _)

end

/-! ### Jumps and returns -/

section

variable (heads : track.Heads same frame another callers outer shift)
  (running : left.calls = frame :: callers) (runningToo : right.calls = another :: outer)
include heads running runningToo

theorem Abreast.resume (next : Nat) :
    Abreast same track (left.resume frame next) (right.resume another (next + shift)) := by
  refine ⟨⟨abreast.config_eq, abreast.sink_eq, abreast.globals⟩, abreast.stack, ?_⟩
  rw [calls_resume running, calls_resume runningToo]
  exact heads.onward next

theorem Abreast.jump (distance : Nat) :
    SameStep same track (execute (.jump distance) left) (execute (.jump distance) right) := by
  rw [execute_jump (frames_back? running), execute_jump (frames_back? runningToo),
    heads.ip_eq, Nat.add_right_comm]
  exact abreast.resume heads running runningToo _

theorem Abreast.jumpIfFalse (two : 1 < left.stack.size) (distance : Nat) :
    SameStep same track (execute (.jumpIfFalse distance) left)
      (execute (.jumpIfFalse distance) right) := by
  rcases abreast.stack.exists_top two with ⟨rest, _, others, _, leftEq, rightEq, _, values⟩
  rw [execute_jumpIfFalse (frames_back? running) leftEq,
    execute_jumpIfFalse (frames_back? runningToo) rightEq, values.isFalsey_eq, heads.ip_eq,
    Nat.add_right_comm]
  split
  · exact abreast.resume heads running runningToo _
  · exact abreast

theorem Abreast.loop {distance : Nat} (inside : distance ≤ frame.ip) :
    SameStep same track (execute (.loop distance) left) (execute (.loop distance) right) := by
  have insideToo : distance ≤ another.ip := by
    rw [heads.ip_eq]
    omega
  have targetEq : another.ip - distance = frame.ip - distance + shift := by
    rw [heads.ip_eq]
    omega
  rw [execute_loop (frames_back? running) inside,
    execute_loop (frames_back? runningToo) insideToo, targetEq]
  exact abreast.resume heads running runningToo _

theorem Abreast.ret (two : 1 < left.stack.size) :
    SameStep same track (execute .ret left) (execute .ret right) := by
  rcases abreast.stack.exists_top two with ⟨rest, _, others, _, leftEq, rightEq, below, values⟩
  rw [execute_ret (frames_back? running) leftEq,
    execute_ret (frames_back? runningToo) rightEq, heads.base_eq, pop_isEmpty running,
    pop_isEmpty runningToo]
  rcases heads.back with ⟨rfl, rfl⟩ | goesOn
  · exact ⟨values, abreast.config_eq, abreast.sink_eq, abreast.globals⟩
  · have notLast : callers.isEmpty = false ∧ outer.isEmpty = false := by
      cases goesOn <;> exact ⟨rfl, rfl⟩
    rw [notLast.1, notLast.2]
    have returned : Abreast same track
        { left with frames := left.frames.pop, stack := rest.shrink frame.base }
        { right with frames := right.frames.pop, stack := others.shrink frame.base } := by
      refine ⟨⟨abreast.config_eq, abreast.sink_eq, abreast.globals⟩, below.shrink _, ?_⟩
      rw [Machine.calls, Machine.calls, reverse_pop running, reverse_pop runningToo]
      exact goesOn
    exact returned.put values

end

/-! ### Calls -/

theorem Abreast.frames_size_eq : right.frames.size = left.frames.size := by
  have lengths := abreast.calls.length_eq
  simpa [Machine.calls] using lengths

theorem Abreast.call {count : Nat} (enough : count + 1 < left.stack.size) :
    SameStep same track (execute (.call count) left) (execute (.call count) right) := by
  have below : ∃ called, left.stack[left.stack.size - (count + 1)]? = some called :=
    ⟨_, Array.getElem?_eq_getElem (by omega)⟩
  rcases below with ⟨called, held⟩
  rcases abreast.stack.get (by omega) held with ⟨calledToo, heldToo, values⟩
  rw [← abreast.stack.size_eq] at heldToo
  rw [execute_call held (by omega), execute_call heldToo (by rw [abreast.stack.size_eq]; omega)]
  cases values with
  | function twin =>
    simp only [twin.alike.arity_eq, abreast.config_eq, abreast.frames_size_eq,
      abreast.stack.size_eq]
    split
    · exact ⟨rfl, abreast.toSameStore⟩
    · split
      · exact ⟨rfl, abreast.toSameStore⟩
      · refine ⟨⟨rfl, abreast.sink_eq, abreast.globals⟩, abreast.stack, ?_⟩
        rw [calls_of_push rfl, calls_of_push rfl]
        exact .function twin _ _ abreast.calls
  | _ => exact ⟨rfl, abreast.toSameStore⟩

end Instructions

end Machine

/-! ## Steps -/

/-- Whether two instructions ask for the same, each in its own function. -/
inductive Callable.Pairs (same : Origin → Origin → Prop) (left right : Callable) :
    Instruction → Instruction → Prop where
  | same {instruction : Instruction} (noPool : instruction.usesPool = false) :
      Pairs same left right instruction instruction
  | constant {place index : Nat} {entry twin : Constant}
      (held : left.function.chunk.constants[place]? = some entry)
      (heldToo : right.function.chunk.constants[index]? = some twin)
      (values : Value.Twin same (left.load place entry) (right.load index twin)) :
      Pairs same left right (.constant place) (.constant index)
  | defineGlobal {place index : Nat} {name : String} (named : left.function.chunk.Names place name)
      (namedToo : right.function.chunk.Names index name) :
      Pairs same left right (.defineGlobal place) (.defineGlobal index)
  | getGlobal {place index : Nat} {name : String} (named : left.function.chunk.Names place name)
      (namedToo : right.function.chunk.Names index name) :
      Pairs same left right (.getGlobal place) (.getGlobal index)
  | setGlobal {place index : Nat} {name : String} (named : left.function.chunk.Names place name)
      (namedToo : right.function.chunk.Names index name) :
      Pairs same left right (.setGlobal place) (.setGlobal index)

theorem Callable.Pairs.size_eq {left right : Callable} {twin : Instruction}
    (pairs : Callable.Pairs same left right instruction twin) : twin.size = instruction.size := by
  cases pairs <;> rfl

namespace Machine

variable {track : Track} {left right : Machine} {frame another : Frame} {callers outer : List Frame}
  {shift : Nat} {instruction twin : Instruction}

/-- Instructions that ask for the same come to the same, once the calls have moved on. -/
theorem Abreast.execute {offset : Nat} (faithful : Faithful same)
    (abreast : Abreast same track left right)
    (heads : track.Heads same frame another callers outer shift)
    (running : left.calls = frame :: callers) (runningToo : right.calls = another :: outer)
    (pairs : Callable.Pairs same frame.callee another.callee instruction twin)
    (enough : instruction.takes < left.stack.size - frame.base)
    (moved : frame.ip = offset + instruction.size) (refers : instruction ≠ .ret → ∃ kind,
      instruction.Refers frame.chunk kind (offset, left.stack.size - frame.base))
    (notRoot : instruction = .getLocal 0 → 0 < frame.base) :
    SameStep same track (execute instruction left) (execute twin right) := by
  have plenty : instruction.takes < left.stack.size := by omega
  have innermost := frames_back? running
  have innermostToo := frames_back? runningToo
  cases pairs with
  | constant held heldToo values =>
    exact abreast.constant innermost innermostToo held heldToo values
  | defineGlobal named namedToo =>
    exact abreast.defineGlobal innermost innermostToo named namedToo plenty
  | getGlobal named namedToo =>
    exact abreast.getGlobal innermost innermostToo named namedToo
  | setGlobal named namedToo =>
    exact abreast.setGlobal innermost innermostToo named namedToo plenty
  | same noPool =>
    cases instruction with
    | constant | defineGlobal | getGlobal | setGlobal => cases noPool
    | negate | logicalNot => exact abreast.unary rfl plenty
    | add | subtract | multiply | divide | equal | greater | less =>
      exact abreast.binary faithful rfl plenty
    | loadNil => exact abreast.put .nil
    | loadTrue | loadFalse => exact abreast.put (.bool _)
    | print => exact abreast.print plenty
    | pop => exact abreast.pop plenty
    | getLocal slot =>
      rcases refers (by simp) with ⟨_, inside, _⟩
      have inside : slot < left.stack.size - frame.base := inside
      refine abreast.getLocal innermost innermostToo heads.base_eq (by omega) ?_
      cases slot with
      | zero => exact notRoot rfl
      | succ slot => exact Nat.succ_pos _
    | setLocal slot =>
      rcases refers (by simp) with ⟨_, inside, _⟩
      have inside : slot < left.stack.size - frame.base := inside
      exact abreast.setLocal innermost innermostToo heads.base_eq (by omega) plenty
    | jump distance => exact abreast.jump heads running runningToo distance
    | jumpIfFalse distance =>
      exact abreast.jumpIfFalse heads running runningToo plenty distance
    | loop distance =>
      rcases refers (by simp) with ⟨_, inside⟩
      refine abreast.loop heads running runningToo ?_
      rw [moved]
      exact inside
    | call count => exact abreast.call plenty
    | ret => exact abreast.ret heads running runningToo plenty

theorem Abreast.step (faithful : Faithful same) (abreast : Abreast same track left right)
    (heads : track.Heads same frame another callers outer shift)
    (running : left.calls = frame :: callers) (runningToo : right.calls = another :: outer)
    (found : frame.chunk.Has frame.ip instruction) (foundToo : another.chunk.Has another.ip twin)
    (pairs : Callable.Pairs same frame.callee another.callee instruction twin)
    (enough : instruction.takes < left.stack.size - frame.base)
    (refers : instruction ≠ .ret → ∃ kind,
      instruction.Refers frame.chunk kind (frame.ip, left.stack.size - frame.base))
    (notRoot : instruction = .getLocal 0 → 0 < frame.base) :
    SameStep same track (step left) (step right) := by
  rw [step_eq (frames_back? running) found, step_eq (frames_back? runningToo) foundToo,
    pairs.size_eq, heads.ip_eq, Nat.add_right_comm]
  have resumed := abreast.resume heads running runningToo (frame.ip + instruction.size)
  exact resumed.execute faithful (heads.resumed _) (calls_resume running _)
    (calls_resume runningToo _) pairs enough rfl refers notRoot

end Machine

end StackScript
