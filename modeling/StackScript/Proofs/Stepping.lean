import StackScript.Proofs.Execution
import StackScript.Proofs.Heights

/-!
# What a step can do

One inversion for all instructions. Either the innermost call goes on at one of the offsets behind
the instruction, or a function is called, or a call returns, or the program fails through a fault of
its own. Every value that a step leaves behind was there before it, or is the constant that the
instruction loads, or is no function.
-/

namespace StackScript

open Exec

namespace Machine

/--
Whether an instruction of `frame` can leave a value behind. From the stack it takes what is above
the slot of the function itself, unless it reads that slot.
-/
def Offers (machine : Machine) (frame : Frame) (instruction : Instruction) (value : Value) : Prop :=
  value.function? = none ∨
    (∃ place, machine.stack[place]? = some value ∧
      (frame.base < place ∨ place = frame.base ∧ instruction = .getLocal 0)) ∨
    (∃ name : String, machine.globals[name]? = some value) ∨
    ∃ (index : Nat) (entry : Constant), instruction = .constant index ∧
      frame.chunk.constants[index]? = some entry ∧ value = frame.callee.load index entry

structure SameSetting (before after : Machine) : Prop where
  config_eq : after.config = before.config
  runs_eq : after.runs = before.runs
  policy_eq : after.sink.policy = before.sink.policy

/-- A step inside of one function. -/
structure Moves (before : Machine) (frame : Frame) (instruction : Instruction)
    (after : Machine) : Prop where
  leads : ∃ next ∈ instruction.nexts frame.ip,
    after.frames = before.frames.pop.push { frame with ip := next }
  size_eq : after.stack.size = before.stack.size - instruction.takes + instruction.gives
  kept : ∀ place < before.stack.size - instruction.takes,
    (∀ slot, instruction = .setLocal slot → place ≠ frame.base + slot) →
    after.stack[place]? = before.stack[place]?
  values : ∀ (place : Nat) (value : Value), after.stack[place]? = some value →
    before.stack[place]? = some value ∨ before.Offers frame instruction value
  globals : ∀ (name : String) (value : Value), after.globals[name]? = some value →
    before.Offers frame instruction value
  top_eq : instruction = .loadNil → after.stack.back? = some .nil

/-- What a step comes to unless it fails. -/
inductive Stepped (before : Machine) (frame : Frame) (instruction : Instruction) :
    Option Value → Machine → Prop where
  | moved {after : Machine} (moves : before.Moves frame instruction after) :
      Stepped before frame instruction none after
  | called {count : Nat} {callee : Callable} (calls : instruction = .call count)
      (held : before.stack[before.stack.size - (count + 1)]? = some (.function callee))
      (matching : callee.function.arity = count)
      (deeper : before.frames.size < before.config.maxFrames) :
      Stepped before frame instruction none { before with
        frames := (before.frames.pop.push { frame with ip := frame.ip + 2 }).push
          ⟨callee, 0, before.stack.size - (count + 1)⟩ }
  | returned {value : Value} (returns : instruction = .ret)
      (top : before.stack.back? = some value) (inside : before.frames.pop ≠ #[]) :
      Stepped before frame instruction none { before with
        frames := before.frames.pop
        stack := (before.stack.pop.shrink frame.base).push value }
  | ended {value : Value} (returns : instruction = .ret)
      (top : before.stack.back? = some value) (last : before.frames.pop = #[]) :
      Stepped before frame instruction (some value) { before with
        frames := before.frames.pop
        stack := before.stack.pop.shrink frame.base }

/-- What a step comes to: a fault is one of the program and leaves the global variables alone. -/
def Allows (before : Machine) (frame : Frame) (instruction : Instruction) :
    EStateM.Result Fault Machine (Option Value) → Prop
  | .ok result after => before.Stepped frame instruction result after ∧ before.SameSetting after
  | .error fault after =>
    fault.code = .runtime ∧ after.globals = before.globals ∧ before.SameSetting after

variable {before : Machine} {frame : Frame} {instruction : Instruction} {stack : Array Value}
  {value : Value} {next : Nat} {name : String}

theorem sameGlobals (before : Machine) (frame : Frame) (instruction : Instruction) (name : String)
    (value : Value) (found : before.globals[name]? = some value) :
    before.Offers frame instruction value :=
  Or.inr (Or.inr (Or.inl ⟨name, found⟩))

theorem allows_put (leads : next ∈ instruction.nexts frame.ip) (gives : instruction.gives = 1)
    (sized : stack.size = before.stack.size - instruction.takes)
    (kept : ∀ place < stack.size, stack[place]? = before.stack[place]?)
    (offers : before.Offers frame instruction value)
    (nilTop : instruction = .loadNil → value = .nil) :
    before.Allows frame instruction (put value { before.resume frame next with stack }) := by
  rw [put_apply]
  split
  · refine ⟨.moved ⟨⟨next, leads, rfl⟩, ?_, ?_, ?_, sameGlobals before frame _, ?_⟩, rfl, rfl, rfl⟩
    · simp [sized, gives]
    · intro place inside _
      rw [← sized] at inside
      rw [← kept place inside]
      simp [Array.getElem?_push, Nat.ne_of_lt inside]
    · intro place held found
      simp only [Array.getElem?_push] at found
      split at found
      · cases found
        exact Or.inr offers
      · rw [kept place (Array.getElem?_eq_some_iff.mp found).1] at found
        exact Or.inl found
    · intro isNil
      simp [nilTop isNil]
  · exact ⟨rfl, rfl, rfl, rfl, rfl⟩

theorem moves_of_kept {after : Machine} (leads : next ∈ instruction.nexts frame.ip)
    (framesEq : after.frames = before.frames.pop.push { frame with ip := next })
    (gives : instruction.gives = 0)
    (sized : after.stack.size = before.stack.size - instruction.takes)
    (kept : ∀ place < after.stack.size, after.stack[place]? = before.stack[place]?)
    (globals : ∀ (name : String) (value : Value), after.globals[name]? = some value →
      before.Offers frame instruction value) : before.Moves frame instruction after := by
  refine ⟨⟨next, leads, framesEq⟩, by simp [sized, gives], ?_, ?_, globals, ?_⟩
  · intro place inside _
    exact kept place (by omega)
  · intro place held found
    rw [kept place (Array.getElem?_eq_some_iff.mp found).1] at found
    exact Or.inl found
  · rintro rfl
    cases gives

theorem offers_insert (held : before.Offers frame instruction value) (other : String)
    (found : Value) (inserted : (before.globals.insert name value)[other]? = some found) :
    before.Offers frame instruction found := by
  rw [Std.TreeMap.getElem?_insert] at inserted
  split at inserted
  · rw [← Option.some.inj inserted]
    exact held
  · exact sameGlobals before frame _ _ _ inserted

end Machine

namespace Exec

variable {instruction : Instruction}

theorem function?_of_unary {operation : Value → Except Fault Value} {operand : Value}
    (computes : unary? instruction = some operation) :
    match operation operand with
    | .ok value => value.function? = none
    | .error fault => fault.code = .runtime := by
  cases instruction <;> cases computes <;> cases operand <;> rfl

theorem function?_of_binary {operation : Value → Value → Except Fault Value} {left right : Value}
    (computes : binary? instruction = some operation) :
    match operation left right with
    | .ok value => value.function? = none
    | .error fault => fault.code = .runtime := by
  cases instruction <;> cases computes <;> cases left <;> cases right <;> rfl

end Exec

namespace Machine

variable {before after : Machine} {frame : Frame} {instruction : Instruction} {stack : Array Value}
  {value : Value} {next : Nat}

theorem allows_result {result : Except Fault Value} (leads : next ∈ instruction.nexts frame.ip)
    (gives : instruction.gives = 1) (notNil : instruction ≠ .loadNil)
    (sized : stack.size = before.stack.size - instruction.takes)
    (kept : ∀ place < stack.size, stack[place]? = before.stack[place]?)
    (plain : match result with
      | .ok value => value.function? = none
      | .error fault => fault.code = .runtime) :
    before.Allows frame instruction
      (settleResult { before.resume frame next with stack } result) := by
  cases result with
  | ok value =>
    exact allows_put leads gives sized kept (Or.inl plain) fun isNil => absurd isNil notNil
  | error fault => exact ⟨plain, rfl, rfl, rfl, rfl⟩

theorem computing
    (computes : (∃ operation, unary? instruction = some operation) ∨
      ∃ operation, binary? instruction = some operation) (ip : Nat) :
    instruction.gives = 1 ∧ ip + instruction.size ∈ instruction.nexts ip ∧
      instruction ≠ .loadNil := by
  rcases computes with ⟨operation, computes⟩ | ⟨operation, computes⟩ <;>
    cases instruction <;> cases computes <;> exact ⟨rfl, List.mem_singleton_self _, nofun⟩

theorem allows_unary {operation : Value → Except Fault Value}
    (computes : unary? instruction = some operation)
    (enough : instruction.takes < before.stack.size) :
    before.Allows frame instruction
      (execute instruction (before.resume frame (frame.ip + instruction.size))) := by
  have one : instruction.takes = 1 := by cases instruction <;> first | rfl | cases computes
  rcases computing (.inl ⟨_, computes⟩) frame.ip with ⟨gives, leads, notNil⟩
  rcases Array.eq_push_of_size_ne_zero (show before.stack.size ≠ 0 by omega) with
    ⟨rest, operand, stackEq⟩
  have top : (before.resume frame (frame.ip + instruction.size)).stack = rest.push operand :=
    stackEq
  rw [execute_unary computes top]
  refine allows_result leads gives notNil ?_ ?_ (function?_of_unary computes)
  · simp [stackEq, one]
  · intro place inside
    simp [stackEq, Array.getElem?_push, Nat.ne_of_lt inside]

theorem allows_binary {operation : Value → Value → Except Fault Value}
    (computes : binary? instruction = some operation)
    (enough : instruction.takes < before.stack.size) :
    before.Allows frame instruction
      (execute instruction (before.resume frame (frame.ip + instruction.size))) := by
  have two : instruction.takes = 2 := by cases instruction <;> first | rfl | cases computes
  rcases computing (.inr ⟨_, computes⟩) frame.ip with ⟨gives, leads, notNil⟩
  rcases Array.eq_push_of_size_ne_zero (show before.stack.size ≠ 0 by omega) with
    ⟨upper, right, stackEq⟩
  have upperSize : before.stack.size = upper.size + 1 := by simp [stackEq]
  rcases Array.eq_push_of_size_ne_zero (show upper.size ≠ 0 by omega) with ⟨rest, left, rfl⟩
  have top : (before.resume frame (frame.ip + instruction.size)).stack =
      (rest.push left).push right := stackEq
  rw [execute_binary computes top]
  refine allows_result leads gives notNil ?_ ?_ (function?_of_binary computes)
  · simp [stackEq, two]
  · intro place inside
    have further : place ≠ rest.size + 1 := by omega
    simp [stackEq, Array.getElem?_push, Nat.ne_of_lt inside, further]

theorem allows_load (none : instruction.takes = 0) (gives : instruction.gives = 1)
    (leads : next ∈ instruction.nexts frame.ip) (offers : before.Offers frame instruction value)
    (nilTop : instruction = .loadNil → value = .nil) :
    before.Allows frame instruction (put value (before.resume frame next)) :=
  allows_put leads gives (by simp [none]) (fun _ _ => rfl) offers nilTop

theorem moves_of_same (leads : next ∈ instruction.nexts frame.ip)
    (framesEq : after.frames = before.frames.pop.push { frame with ip := next })
    (balanced : instruction.takes = instruction.gives)
    (enough : instruction.takes < before.stack.size) (notNil : instruction ≠ .loadNil)
    (stackEq : after.stack = before.stack)
    (globals : ∀ (name : String) (value : Value), after.globals[name]? = some value →
      before.Offers frame instruction value) : before.Moves frame instruction after := by
  refine ⟨⟨next, leads, framesEq⟩, ?_, ?_, ?_, globals, fun isNil => absurd isNil notNil⟩
  · rw [stackEq]
    omega
  · intro place _ _
    rw [stackEq]
  · intro place held found
    rw [stackEq] at found
    exact Or.inl found

theorem allows_goTo (leads : next ∈ instruction.nexts frame.ip)
    (balanced : instruction.takes = instruction.gives)
    (enough : instruction.takes < before.stack.size) (notNil : instruction ≠ .loadNil) :
    before.Allows frame instruction (.ok none (before.resume frame next)) :=
  ⟨.moved (moves_of_same leads rfl balanced enough notNil rfl (sameGlobals before frame _)),
    rfl, rfl, rfl⟩

theorem moves_of_pop {top : Value} (leads : next ∈ instruction.nexts frame.ip)
    (framesEq : after.frames = before.frames.pop.push { frame with ip := next })
    (one : instruction.takes = 1) (gives : instruction.gives = 0)
    (stackEq : before.stack = after.stack.push top)
    (globals : ∀ (name : String) (value : Value), after.globals[name]? = some value →
      before.Offers frame instruction value) : before.Moves frame instruction after := by
  refine moves_of_kept leads framesEq gives ?_ ?_ globals
  · simp [stackEq, one]
  · intro place inside
    simp [stackEq, Array.getElem?_push, Nat.ne_of_lt inside]

theorem offers_of_top (top : before.stack = stack.push value) (above : frame.base < stack.size) :
    before.Offers frame instruction value :=
  Or.inr (Or.inl ⟨stack.size, by simp [top], Or.inl above⟩)

theorem policy_of_write {sink after : Sink} {text : String} {answer : Option String}
    (writes : sink.write text = (after, answer)) : after.policy = sink.policy := by
  cases writes
  rfl

theorem allows_setLocal {slot : Nat} (stackEq : before.stack = stack.push value)
    (inside : slot < before.stack.size - frame.base) (above : frame.base < stack.size) :
    before.Allows frame (.setLocal slot)
      (execute (.setLocal slot) (before.resume frame (frame.ip + 2))) := by
  have sized : before.stack.size = stack.size + 1 := by simp [stackEq]
  rw [execute_setLocal (innermost_resume _) (by simp; omega) stackEq]
  refine ⟨.moved ⟨⟨_, List.mem_singleton_self _, rfl⟩, ?_, ?_, ?_,
    sameGlobals before frame _, by simp⟩, rfl, rfl, rfl⟩
  · simp only [resume_stack, Array.size_setIfInBounds, Instruction.takes, Instruction.gives]
    omega
  · intro place _ other
    have different : frame.base + slot ≠ place := fun same => other slot rfl same.symm
    simp [different]
  · intro place held found
    simp only [resume_stack, Array.getElem?_setIfInBounds] at found
    split at found
    · split at found
      · cases found
        exact Or.inr (offers_of_top stackEq above)
      · cases found
    · exact Or.inl found

theorem allows_call {count : Nat} (positive : 0 < before.frames.size)
    (plenty : count + 1 < before.stack.size) :
    before.Allows frame (.call count)
      (execute (.call count) (before.resume frame (frame.ip + 2))) := by
  have held : ∃ called, before.stack[before.stack.size - (count + 1)]? = some called :=
    ⟨_, Array.getElem?_eq_getElem (by omega)⟩
  rcases held with ⟨called, held⟩
  have resumed := @execute_call (before.resume frame (frame.ip + 2)) _ _ held (Nat.le_of_lt plenty)
  rw [resumed]
  cases called with
  | function callee =>
    simp only
    split
    · exact ⟨rfl, rfl, rfl, rfl, rfl⟩
    · next matching =>
      split
      · exact ⟨rfl, rfl, rfl, rfl, rfl⟩
      · next room =>
        have deeper : before.frames.size < before.config.maxFrames := by
          simp only [resume_config, resume_frames, Array.size_push, Array.size_pop] at room
          omega
        exact ⟨.called rfl held (Decidable.not_not.mp matching) deeper, rfl, rfl, rfl⟩
  | _ => exact ⟨rfl, rfl, rfl, rfl, rfl⟩

theorem allows_ret (stackEq : before.stack = stack.push value) :
    before.Allows frame .ret (execute .ret (before.resume frame next)) := by
  have back : before.stack.back? = some value := by simp [stackEq]
  have popped : before.stack.pop = stack := by simp [stackEq]
  have framesEq : (before.resume frame next).frames.pop = before.frames.pop := by simp
  rw [execute_ret (innermost_resume next) stackEq, framesEq, ← popped]
  split
  · next last => exact ⟨.ended rfl back (by simpa using last), rfl, rfl, rfl⟩
  · next inside =>
    rw [put_apply]
    split
    · exact ⟨.returned rfl back (by simpa using inside), rfl, rfl, rfl⟩
    · exact ⟨rfl, rfl, rfl, rfl, rfl⟩

/-- What a step can do, if its instruction finds what it takes and what it refers to. -/
theorem step_allows (innermost : before.frames.back? = some frame)
    (found : frame.chunk.Has frame.ip instruction)
    (enough : instruction.takes < before.stack.size - frame.base)
    (refers : instruction ≠ .ret → ∃ kind, instruction.Refers frame.chunk kind
      (frame.ip, before.stack.size - frame.base)) :
    before.Allows frame instruction (step before) := by
  rw [step_eq innermost found]
  have plenty : instruction.takes < before.stack.size := by omega
  rcases Array.eq_push_of_size_ne_zero (Nat.ne_of_gt (Nat.zero_lt_of_lt plenty)) with
    ⟨rest, top, stackEq⟩
  have below (above : 1 < before.stack.size - frame.base) : frame.base < rest.size := by
    rw [stackEq, Array.size_push] at above
    omega
  have onTop : (before.resume frame (frame.ip + instruction.size)).stack = rest.push top := stackEq
  have moved := @innermost_resume before frame (frame.ip + instruction.size)
  cases instruction with
  | negate | logicalNot => exact allows_unary rfl plenty
  | add | subtract | multiply | divide | equal | greater | less => exact allows_binary rfl plenty
  | loadNil => exact allows_load rfl rfl (List.mem_singleton_self _) (Or.inl rfl) fun _ => rfl
  | loadTrue | loadFalse =>
    exact allows_load rfl rfl (List.mem_singleton_self _) (Or.inl rfl) (by simp)
  | constant index =>
    rcases refers (by simp) with ⟨_, inside⟩
    have inside : index < frame.chunk.constants.size := inside
    have held : frame.chunk.constants[index]? = some frame.chunk.constants[index] :=
      Array.getElem?_eq_getElem inside
    rw [execute_constant moved held]
    exact allows_load rfl rfl (List.mem_singleton_self _)
      (Or.inr (Or.inr (Or.inr ⟨index, _, rfl, held, rfl⟩))) (by simp)
  | getGlobal index =>
    rcases refers (by simp) with ⟨_, name, named⟩
    rw [execute_getGlobal moved named]
    cases known : before.globals[name]? with
    | some value =>
      simp only [resume_globals, known]
      exact allows_load rfl rfl (List.mem_singleton_self _) (sameGlobals _ _ _ _ _ known) (by simp)
    | none =>
      simp only [resume_globals, known]
      exact ⟨rfl, rfl, rfl, rfl, rfl⟩
  | getLocal slot =>
    rcases refers (by simp) with ⟨_, inside, _⟩
    have inside : slot < before.stack.size - frame.base := inside
    have held : before.stack[frame.base + slot]? = some before.stack[frame.base + slot] :=
      Array.getElem?_eq_getElem (by omega)
    rw [execute_getLocal moved held]
    have offered : before.Offers frame (.getLocal slot) before.stack[frame.base + slot] := by
      refine Or.inr (Or.inl ⟨_, held, ?_⟩)
      cases slot with
      | zero => exact Or.inr ⟨rfl, rfl⟩
      | succ slot => exact Or.inl (by omega)
    exact allows_load rfl rfl (List.mem_singleton_self _) offered (by simp)
  | print =>
    rw [execute_print onTop]
    split
    · next writes =>
      exact ⟨.moved (moves_of_pop (List.mem_singleton_self _) rfl rfl rfl stackEq
        (sameGlobals before frame _)), rfl, rfl, policy_of_write writes⟩
    · next writes => exact ⟨rfl, rfl, rfl, rfl, policy_of_write writes⟩
  | pop =>
    rw [execute_pop onTop]
    exact ⟨.moved (moves_of_pop (List.mem_singleton_self _) rfl rfl rfl stackEq
      (sameGlobals before frame _)), rfl, rfl, rfl⟩
  | defineGlobal index =>
    rcases refers (by simp) with ⟨_, name, named⟩
    rw [execute_defineGlobal moved named stackEq]
    have offered : before.Offers frame (.defineGlobal index) top :=
      offers_of_top stackEq (below enough)
    exact ⟨.moved (moves_of_pop (List.mem_singleton_self _) rfl rfl rfl stackEq
      (offers_insert offered)), rfl, rfl, rfl⟩
  | setGlobal index =>
    rcases refers (by simp) with ⟨_, name, named⟩
    rw [execute_setGlobal moved named stackEq]
    have offered : before.Offers frame (.setGlobal index) top :=
      offers_of_top stackEq (below enough)
    split
    · exact ⟨.moved (moves_of_same (List.mem_singleton_self _) rfl rfl plenty (by simp) rfl
        (offers_insert offered)), rfl, rfl, rfl⟩
    · exact ⟨rfl, rfl, rfl, rfl, rfl⟩
  | setLocal slot =>
    rcases refers (by simp) with ⟨_, inside, _⟩
    exact allows_setLocal stackEq inside (below enough)
  | jump distance =>
    rw [execute_jump moved, resume_resume]
    exact allows_goTo (List.mem_singleton_self _) rfl plenty (by simp)
  | jumpIfFalse distance =>
    rw [execute_jumpIfFalse moved stackEq, resume_resume]
    split
    · exact allows_goTo (List.mem_cons_of_mem _ (List.mem_singleton_self _)) rfl plenty (by simp)
    · exact allows_goTo List.mem_cons_self rfl plenty (by simp)
  | loop distance =>
    rcases refers (by simp) with ⟨_, inside⟩
    rw [execute_loop moved inside, resume_resume]
    exact allows_goTo (List.mem_singleton_self _) rfl plenty (by simp)
  | call count => exact allows_call (Array.size_pos_of_mem (Array.mem_of_back? innermost)) plenty
  | ret => exact allows_ret stackEq

end Machine

/-! ## The functions at hand -/

/-- Whether a value has a property, in case that it is a function. -/
def Value.Obeys (holds : Callable → Prop) (value : Value) : Prop :=
  ∀ callable, value.function? = some callable → holds callable

namespace Machine

/-- The calls that are going on, the innermost first. -/
def calls (machine : Machine) : List Frame :=
  machine.frames.toList.reverse

/-- Whether the functions in global variables have a property. -/
def Keeps (holds : Callable → Prop) (machine : Machine) : Prop :=
  ∀ (name : String) (value : Value), machine.globals[name]? = some value → value.Obeys holds

/--
Whether the functions in global variables and on the stack, from slot `low` on, have a property, and
those that are called another one.
-/
structure Carries (holds runs : Callable → Prop) (low : Nat) (machine : Machine) : Prop where
  stack : ∀ (place : Nat) (value : Value), low ≤ place → machine.stack[place]? = some value →
    value.Obeys holds
  globals : machine.Keeps holds
  calls : ∀ frame ∈ machine.calls, runs frame.callee

variable {machine before after : Machine} {frame : Frame} {callers : List Frame}
  {instruction : Instruction} {value : Value} {holds runs : Callable → Prop} {low : Nat}

theorem frames_back? (running : machine.calls = frame :: callers) :
    machine.frames.back? = some frame := by
  rw [← Array.getLast?_toList, ← List.head?_reverse]
  exact congrArg List.head? running

theorem exists_callers (innermost : machine.frames.back? = some frame) :
    ∃ callers, machine.calls = frame :: callers := by
  rw [← Array.getLast?_toList, ← List.head?_reverse] at innermost
  exact List.head?_eq_some_iff.mp innermost

theorem calls_of_push {frames : Array Frame} {top : Frame}
    (framesEq : after.frames = frames.push top) : after.calls = top :: frames.toList.reverse := by
  simp [calls, framesEq]

theorem reverse_pop (running : machine.calls = frame :: callers) :
    machine.frames.pop.toList.reverse = callers := by
  have tail := congrArg List.tail running
  simpa [calls] using tail

theorem getElem?_shrink {stack : Array Value} {base place : Nat} (inside : place < base)
    (below : base < stack.size) : (stack.pop.shrink base)[place]? = stack[place]? := by
  simp only [Array.shrink_eq_take, Array.take_eq_extract, Array.getElem?_extract, Array.size_pop,
    Array.getElem?_pop, Nat.zero_add, Nat.sub_zero]
  rw [if_pos (by omega), if_pos (by omega)]

theorem Keeps.loaded (keeps : machine.Keeps holds) {script : Function}
    (bottom : low = 0 → holds (.script machine.runs script))
    (root : runs (.script machine.runs script)) :
    (machine.loaded script).Carries holds runs low := by
  refine ⟨?_, keeps, ?_⟩
  · rintro place value above found callable isFunction
    rw [Machine.loaded, List.getElem?_toArray, List.getElem?_singleton] at found
    split at found
    · next atBottom =>
      cases found
      cases isFunction
      exact bottom (by omega)
    · cases found
  · intro frame present
    rw [List.mem_singleton.mp present]
    exact root

section

variable (carries : before.Carries holds runs low) (low_le : low ≤ 1)
  (loads : ∀ index function, instruction = .constant index →
    frame.chunk.constants[index]? = some (.function function) →
      holds ⟨function, ⟨frame.callee.origin.run, index :: frame.callee.origin.path⟩⟩)
  (reads : instruction = .getLocal 0 → low ≤ frame.base)
include carries low_le loads reads

theorem Carries.obeys (offers : before.Offers frame instruction value) : value.Obeys holds := by
  rcases offers with
    plain | ⟨place, onStack, above⟩ | ⟨name, found⟩ | ⟨index, entry, isLoad, held, rfl⟩
  · intro callable isFunction
    rw [plain] at isFunction
    cases isFunction
  · refine carries.stack place value ?_ onStack
    rcases above with higher | ⟨rfl, isRead⟩
    · omega
    · exact reads isRead
  · exact carries.globals name value found
  · intro callable isFunction
    cases entry with
    | function function =>
      cases isFunction
      exact loads index function isLoad held
    | _ => cases isFunction

/-- A step keeps what is said of the functions at hand, if it holds of those that it loads. -/
theorem Carries.stepped (implies : ∀ callable, holds callable → runs callable)
    (running : before.calls = frame :: callers)
    (enough : instruction.takes < before.stack.size - frame.base)
    (stepped : before.Stepped frame instruction none after) : after.Carries holds runs low := by
  have known := carries.calls
  rw [running, List.forall_mem_cons] at known
  cases stepped with
  | moved moves =>
    rcases moves.leads with ⟨next, _, framesEq⟩
    refine ⟨?_, ?_, ?_⟩
    · intro place value above found
      rcases moves.values place value found with kept | offers
      · exact carries.stack place value above kept
      · exact carries.obeys low_le loads reads offers
    · intro name value found
      exact carries.obeys low_le loads reads (moves.globals name value found)
    · rw [calls_of_push framesEq, reverse_pop running, List.forall_mem_cons]
      exact known
  | @called count callee isCall held =>
    subst isCall
    have inReach : low ≤ before.stack.size - (count + 1) := by
      rw [Instruction.takes] at enough
      omega
    refine { carries with calls := ?_ }
    rw [calls_of_push rfl, Array.toList_push, List.reverse_append, reverse_pop running,
      List.forall_mem_cons]
    refine ⟨implies callee (carries.stack _ _ inReach held callee rfl), ?_⟩
    exact List.forall_mem_cons.mpr known
  | returned isReturn top =>
    subst isReturn
    rw [Instruction.takes] at enough
    rw [Array.back?_eq_getElem?] at top
    refine { carries with stack := ?_, calls := ?_ }
    · intro place held above found
      rw [Array.getElem?_push] at found
      split at found
      · cases found
        exact carries.stack _ _ (by omega) top
      · have inside := (Array.getElem?_eq_some_iff.mp found).1
        simp only [Array.size_shrink, Array.size_pop] at inside
        rw [getElem?_shrink (by omega) (by omega)] at found
        exact carries.stack place held above found
    · rw [Machine.calls, reverse_pop running]
      exact known.2

end

end Machine

end StackScript
