import Mathlib.Data.List.Forall2
import StackScript.Proofs.Correspondence
import StackScript.Proofs.Execution

/-!
# Machines that follow an evaluation

A machine follows an evaluation if it comes to a place that fits the result. Nothing is asked of it
when the evaluation runs out of fuel, and at any time it may find its stack or its calls used up.
What is said here about single instructions adds up to what is said about the code of trees.
-/

namespace StackScript

open Exec
open Reference

/-- What a run finds: the scripts loaded so far, its own included, and what was printed before. -/
structure History where
  library : List Function
  printed : ByteArray

structure Reports (history : History) (globals : Globals) (sink : Sink) (state : State) : Prop where
  globals : GlobalsMatch history.library globals state.globals
  unlimited : sink.policy = .takeAll
  written : sink.written = history.printed ++ state.output.toUTF8

theorem Reports.insert {history : History} {globals : Globals} {sink : Sink} {state : State}
    {value : Value} {meaning : Meaning} (reports : Reports history globals sink state)
    (name : String) (agree : Matches history.library value meaning) :
    Reports history (globals.insert name value) sink
      { state with globals := state.globals.insert name meaning } := by
  refine { reports with globals := ?_ }
  intro other
  simp only [Std.TreeMap.getElem?_insert]
  split
  · exact .some agree
  · exact reports.globals other

namespace Machine

/-- Whether a machine comes to another one. -/
def Leads (machine next : Machine) : Prop :=
  ∃ steps, machine.advance steps = .running next

/-- Whether a machine comes to a fault. -/
def Fails (machine : Machine) (fault : Fault) (last : Machine) : Prop :=
  ∃ steps line, machine.advance steps = .finished (.error ⟨fault, line⟩) last

/-- Whether there is no room left. -/
def IsFull (machine : Machine) : Prop :=
  machine.config.stackSize ≤ machine.stack.size ∨ machine.config.maxFrames ≤ machine.frames.size

/-- Whether a machine comes to an overflow. -/
def Overflows (machine : Machine) : Prop :=
  ∃ full line last, machine.Leads full ∧ full.IsFull ∧
    full.tick = .finished (.error ⟨.stackOverflow, line⟩) last

variable {machine next last : Machine} {fault : Fault} {steps : Nat}

theorem advance_add (reached : machine.advance steps = .running next) (more : Nat) :
    machine.advance (steps + more) = next.advance more := by
  induction steps generalizing machine with
  | zero =>
    cases reached
    rw [Nat.zero_add]
  | succ steps ih =>
    rw [Nat.succ_add, advance]
    rw [advance] at reached
    generalize machine.tick = progress at reached
    cases progress with
    | running between => exact ih reached
    | finished outcome ended => cases reached

theorem Leads.refl (machine : Machine) : machine.Leads machine :=
  ⟨0, rfl⟩

theorem Leads.trans {between : Machine} (first : machine.Leads between)
    (second : between.Leads next) : machine.Leads next := by
  rcases first with ⟨steps, reached⟩
  rcases second with ⟨more, reachedNext⟩
  exact ⟨steps + more, (advance_add reached more).trans reachedNext⟩

theorem Leads.ofTick (ticked : machine.tick = .running next) : machine.Leads next :=
  ⟨1, by rw [advance, ticked]; rfl⟩

theorem Leads.fails (leads : machine.Leads next) (fails : next.Fails fault last) :
    machine.Fails fault last := by
  rcases leads with ⟨steps, reached⟩
  rcases fails with ⟨more, line, ended⟩
  exact ⟨steps + more, line, (advance_add reached more).trans ended⟩

theorem Leads.overflows (leads : machine.Leads next) (overflows : next.Overflows) :
    machine.Overflows := by
  rcases overflows with ⟨full, line, last, onward, isFull, ended⟩
  exact ⟨full, line, last, leads.trans onward, isFull, ended⟩

/-- Whether a machine follows an evaluation with that result, and comes to where `post` holds. -/
def Follows {α : Type} (history : History) (post : α → State → Machine → Prop)
    (machine : Machine) : EStateM.Result Stop State α → Prop
  | .ok value state => machine.Overflows ∨ ∃ next, machine.Leads next ∧ post value state next
  | .error (.fault fault) state =>
    machine.Overflows ∨
      ∃ last, machine.Fails fault last ∧ Reports history last.globals last.sink state
  | .error .outOfFuel _ => True

namespace Follows

variable {α β : Type} {history : History} {post : α → State → Machine → Prop}
  {result : EStateM.Result Stop State α} {state : State}

theorem done {value : α} (holds : post value state machine) :
    machine.Follows history post (.ok value state) :=
  Or.inr ⟨machine, .refl machine, holds⟩

theorem ofOverflows (overflows : machine.Overflows) : machine.Follows history post result := by
  rcases result with ⟨value, state⟩ | ⟨stop, state⟩
  · exact Or.inl overflows
  · cases stop with
    | outOfFuel => trivial
    | fault fault => exact Or.inl overflows

theorem ofLeads (leads : machine.Leads next) (onward : next.Follows history post result) :
    machine.Follows history post result := by
  rcases result with ⟨value, state⟩ | ⟨stop, state⟩
  · rcases onward with overflows | ⟨last, further, holds⟩
    · exact Or.inl (leads.overflows overflows)
    · exact Or.inr ⟨last, leads.trans further, holds⟩
  · cases stop with
    | outOfFuel => trivial
    | fault fault =>
      rcases onward with overflows | ⟨last, fails, reports⟩
      · exact Or.inl (leads.overflows overflows)
      · exact Or.inr ⟨last, leads.fails fails, reports⟩

theorem bind {action : Eval β} {onward : β → Eval α} {between : β → State → Machine → Prop}
    (first : machine.Follows history between (action state))
    (second : ∀ value after next, between value after next →
      next.Follows history post (onward value after)) :
    machine.Follows history post ((action >>= onward) state) := by
  change machine.Follows history post (EStateM.bind action onward state)
  rw [EStateM.bind]
  generalize action state = result at first
  rcases result with ⟨value, after⟩ | ⟨stop, after⟩
  · rcases first with overflows | ⟨next, leads, holds⟩
    · exact ofOverflows overflows
    · exact ofLeads leads (second value after next holds)
  · cases stop with
    | outOfFuel => trivial
    | fault fault => exact first

theorem andThen {between : α → State → Machine → Prop}
    (first : machine.Follows history between result)
    (second : ∀ value after next, between value after next →
      next.Follows history post (.ok value after)) :
    machine.Follows history post result := by
  rcases result with ⟨value, after⟩ | ⟨stop, after⟩
  · rcases first with overflows | ⟨next, leads, holds⟩
    · exact ofOverflows overflows
    · exact ofLeads leads (second value after next holds)
  · cases stop with
    | outOfFuel => trivial
    | fault fault => exact first

theorem imp {weaker : α → State → Machine → Prop} (follows : machine.Follows history post result)
    (implies : ∀ value after next, post value after next → weaker value after next) :
    machine.Follows history weaker result := by
  apply follows.andThen
  intro value after next holds
  exact done (implies value after next holds)

theorem withResult (follows : machine.Follows history post result) :
    machine.Follows history (fun value after next => result = .ok value after ∧
      post value after next) result := by
  rcases result with ⟨value, after⟩ | ⟨stop, after⟩
  · rcases follows with overflows | ⟨next, leads, holds⟩
    · exact Or.inl overflows
    · exact Or.inr ⟨next, leads, rfl, holds⟩
  · cases stop with
    | outOfFuel => trivial
    | fault fault => exact follows

theorem ofStep (stepped : step machine = .ok none next)
    (onward : next.Follows history post result) : machine.Follows history post result := by
  apply ofLeads _ onward
  apply Leads.ofTick
  rw [tick, stepped]
  rfl

theorem ofFault (stepped : step machine = .error fault next)
    (reports : Reports history next.globals next.sink state) :
    machine.Follows history post (.error (.fault fault) state) := by
  refine Or.inr ⟨next.reset, ⟨1, (machine.frames.back?.map Frame.line).getD 0, ?_⟩, reports⟩
  rw [advance, tick, stepped]
  rfl

theorem ofFull (stepped : step machine = .error .stackOverflow next)
    (full : machine.IsFull) : machine.Follows history post result := by
  apply ofOverflows
  refine ⟨machine, (machine.frames.back?.map Frame.line).getD 0, next.reset, .refl machine,
    full, ?_⟩
  rw [tick, stepped]
  rfl

theorem ofPut {value : Value} (stepped : step machine = put value next)
    (configEq : next.config = machine.config) (fewer : next.stack.size ≤ machine.stack.size)
    (onward : Follows history post { next with stack := next.stack.push value } result) :
    machine.Follows history post result := by
  rw [put_apply] at stepped
  split at stepped
  · exact ofStep stepped onward
  · apply ofFull stepped
    left
    rw [← configEq]
    omega

end Follows

end Machine

/-! ## Calls -/

/-- A call with what it leaves alone: its callers and their part of the stack. -/
structure Activation where
  config : Config
  below : Array Value
  callers : Array Frame
  callee : Callable
  runs : Nat

/-- What a call can change, apart from the values that it is computing with. -/
structure Store where
  slots : Array Value
  globals : Globals
  sink : Sink

namespace Activation

def chunk (call : Activation) : Chunk Constant :=
  call.callee.function.chunk

/-- The machine with a call at an offset, computing with the values `temps`. -/
def machine (call : Activation) (ip : Nat) (temps : Array Value) (store : Store) : Machine where
  config := call.config
  stack := call.below ++ store.slots ++ temps
  frames := call.callers.push ⟨call.callee, ip, call.below.size⟩
  globals := store.globals
  sink := store.sink
  runs := call.runs

variable {call : Activation} {ip next target : Nat} {temps : Array Value} {store : Store}
  {value : Value}

theorem innermost (ip : Nat) (temps : Array Value) (store : Store) :
    (call.machine ip temps store).frames.back? = some ⟨call.callee, ip, call.below.size⟩ := by
  simp [machine]

theorem resume_eq (ip next : Nat) (temps : Array Value) (store : Store) :
    (call.machine ip temps store).resume ⟨call.callee, ip, call.below.size⟩ next =
      call.machine next temps store := by
  simp [machine, Machine.resume]

theorem stack_push (ip : Nat) (temps : Array Value) (store : Store) (value : Value) :
    (call.machine ip (temps.push value) store).stack =
      (call.machine ip temps store).stack.push value := by
  simp [machine]

theorem push_eq (ip : Nat) (temps : Array Value) (store : Store) (value : Value) :
    { call.machine ip temps store with
      stack := (call.machine ip temps store).stack.push value } =
      call.machine ip (temps.push value) store := by
  simp [machine]

theorem pop_eq (ip : Nat) (temps : Array Value) (store : Store) (value : Value) :
    { call.machine ip (temps.push value) store with
      stack := (call.machine ip temps store).stack } = call.machine ip temps store := by
  simp [machine]

theorem step_eq {instruction : Instruction} (found : call.chunk.Has ip instruction) :
    step (call.machine ip temps store) =
      execute instruction (call.machine (ip + instruction.size) temps store) := by
  rw [Exec.step_eq (innermost ip temps store) found, resume_eq]

/-! ## Instructions -/

variable {α : Type} {history : History} {post : α → State → Machine → Prop}
  {result : EStateM.Result Stop State α} {state : State} {place slot : Nat} {text : String}

theorem follows_put {before : Array Value} (fewer : temps.size ≤ before.size)
    (stepped : step (call.machine ip before store) = put value (call.machine next temps store))
    (onward : (call.machine next (temps.push value) store).Follows history post result) :
    (call.machine ip before store).Follows history post result := by
  apply Machine.Follows.ofPut stepped
  · rfl
  · simp only [machine, Array.size_append]
    omega
  · rw [push_eq]
    exact onward

theorem follows_constant {entry : Constant} (found : call.chunk.Has ip (.constant place))
    (held : call.chunk.constants[place]? = some entry)
    (onward : (call.machine (ip + 2) (temps.push (call.callee.load place entry)) store).Follows
      history post result) :
    (call.machine ip temps store).Follows history post result := by
  apply follows_put (Nat.le_refl _) _ onward
  rw [step_eq found]
  exact execute_constant (innermost _ _ _) held

theorem follows_literal {literal : KeywordLiteral}
    (found : call.chunk.Has ip (literal.opcode.instruction 0))
    (onward : (call.machine (ip + 1) (temps.push literal.datum) store).Follows
      history post result) :
    (call.machine ip temps store).Follows history post result := by
  apply follows_put (Nat.le_refl _) _ onward
  rw [step_eq found]
  cases literal <;> rfl

theorem follows_pop (found : call.chunk.Has ip .pop)
    (onward : (call.machine (ip + 1) temps store).Follows history post result) :
    (call.machine ip (temps.push value) store).Follows history post result := by
  apply Machine.Follows.ofStep _ onward
  rw [step_eq found, execute_pop (stack_push _ _ _ _), pop_eq]
  rfl

theorem follows_jump (jumps : call.chunk.Jumps .jump ip target)
    (onward : (call.machine target temps store).Follows history post result) :
    (call.machine ip temps store).Follows history post result := by
  apply Machine.Follows.ofStep _ onward
  rw [step_eq jumps.2]
  refine (execute_jump (innermost _ _ _) _).trans ?_
  rw [resume_eq]
  congr
  exact Nat.add_sub_of_le jumps.1

theorem follows_jumpIfFalse (jumps : call.chunk.Jumps .jumpIfFalse ip target)
    (onwardFalse : value.isFalsey = true →
      (call.machine target (temps.push value) store).Follows history post result)
    (onwardTrue : value.isFalsey = false →
      (call.machine (ip + 3) (temps.push value) store).Follows history post result) :
    (call.machine ip (temps.push value) store).Follows history post result := by
  have stepped := step_eq jumps.2 |>.trans
    (execute_jumpIfFalse (innermost (ip + 3) _ store) (stack_push _ temps _ value) _)
  cases falsey : value.isFalsey with
  | false =>
    rw [falsey] at stepped
    exact Machine.Follows.ofStep stepped (onwardTrue falsey)
  | true =>
    rw [falsey, if_pos rfl, resume_eq, Nat.add_sub_of_le jumps.1] at stepped
    exact Machine.Follows.ofStep stepped (onwardFalse falsey)

theorem follows_loop (loops : call.chunk.LoopsTo ip target)
    (onward : (call.machine target temps store).Follows history post result) :
    (call.machine ip temps store).Follows history post result := by
  apply Machine.Follows.ofStep _ onward
  rw [step_eq loops.2]
  refine (execute_loop (innermost (ip + 3) _ _) (Nat.sub_le _ _)).trans ?_
  rw [resume_eq]
  congr
  exact Nat.sub_sub_self loops.1

theorem getElem?_stack (ip : Nat) (temps : Array Value) (held : store.slots[slot]? = some value) :
    (call.machine ip temps store).stack[call.below.size + slot]? = some value := by
  have inside := (Array.getElem?_eq_some_iff.mp held).1
  simp only [machine, Array.append_assoc]
  rw [Array.getElem?_append_right (by omega), Nat.add_sub_cancel_left,
    Array.getElem?_append_left inside, held]

theorem set_stack (ip : Nat) (temps : Array Value) (inside : slot < store.slots.size)
    (value : Value) :
    { call.machine ip temps store with
      stack := (call.machine ip temps store).stack.setIfInBounds (call.below.size + slot) value } =
      call.machine ip temps { store with slots := store.slots.setIfInBounds slot value } := by
  simp only [machine, Machine.mk.injEq, true_and, and_true]
  apply Array.toList_inj.mp
  simp only [Array.toList_setIfInBounds, Array.toList_append, List.append_assoc]
  rw [List.set_append_right _ _ (by simp), List.set_append_left _ _ (by simpa using inside)]
  simp

theorem follows_getLocal (found : call.chunk.Has ip (.getLocal slot))
    (held : store.slots[slot]? = some value)
    (onward : (call.machine (ip + 2) (temps.push value) store).Follows history post result) :
    (call.machine ip temps store).Follows history post result := by
  apply follows_put (Nat.le_refl _) _ onward
  rw [step_eq found]
  exact execute_getLocal (innermost _ _ _) (getElem?_stack _ _ held)

theorem follows_setLocal (found : call.chunk.Has ip (.setLocal slot))
    (inside : slot < store.slots.size)
    (onward : (call.machine (ip + 2) (temps.push value)
      { store with slots := store.slots.setIfInBounds slot value }).Follows history post result) :
    (call.machine ip (temps.push value) store).Follows history post result := by
  have onStack : call.below.size + slot <
      (call.machine (ip + 2) (temps.push value) store).stack.size := by
    simp only [machine, Array.size_append]
    omega
  apply Machine.Follows.ofStep _ onward
  rw [step_eq found]
  refine (execute_setLocal (innermost _ _ _) onStack (stack_push _ _ _ value)).trans ?_
  rw [set_stack _ _ inside]

theorem follows_defineGlobal (found : call.chunk.Has ip (.defineGlobal place))
    (named : call.chunk.Names place text)
    (onward : (call.machine (ip + 2) temps
      { store with globals := store.globals.insert text value }).Follows history post result) :
    (call.machine ip (temps.push value) store).Follows history post result := by
  apply Machine.Follows.ofStep _ onward
  rw [step_eq found]
  exact execute_defineGlobal (innermost _ _ _) named (stack_push _ _ _ value)

theorem follows_print (found : call.chunk.Has ip .print) 
    (unlimited : store.sink.policy = .takeAll)
    (onward : (call.machine (ip + 1) temps { store with
      sink := ⟨store.sink.policy, (Value.display value ++ "\n") :: store.sink.given,
        store.sink.written ++ (Value.display value ++ "\n").toUTF8⟩ }).Follows history post
      result) :
    (call.machine ip (temps.push value) store).Follows history post result := by
  apply Machine.Follows.ofStep _ onward
  rw [step_eq found]
  refine (execute_print (stack_push _ _ _ value)).trans ?_
  simp only [machine, Sink.write_of_takeAll unlimited]
  rfl

end Activation

end StackScript
