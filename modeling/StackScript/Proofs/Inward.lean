import StackScript.Proofs.Execution

/-!
# What instructions are made of

Most instructions work on the stack, on the global variables and on the place of the innermost call
in its code. That an action is inward is said by how it is made, so what all inward actions have in
common needs one induction. The ways in which a step can change a machine are listed once, in
`Leads`. Nothing is assumed about the code.
-/

namespace StackScript

/-- Whether a fault is that there is no call, or no instruction at its place. -/
def Fault.isLost : Fault → Bool
  | .noActiveFrame | .codeEnd | .unknownOpcode _ => true
  | _ => false

/-- Whether an instruction may go on at another place in the code of its call. -/
def Instruction.isJump : Instruction → Bool
  | .jump _ | .jumpIfFalse _ | .loop _ => true
  | _ => false

namespace Exec

/--
Actions that write nothing, make no call and end none, by whether they may assign to a global
variable as the last thing they do, and whether they may move the innermost call.
-/
inductive Inward : (assigns moves : Bool) → {α : Type} → Exec α → Prop where
  | pure {α : Type} {assigns moves : Bool} (value : α) : Inward assigns moves (pure value)
  | throw {α : Type} {assigns moves : Bool} {fault : Fault} (own : fault.isLost = false) :
      Inward assigns moves (throw fault : Exec α)
  | bind {α β : Type} {assigns moves : Bool} {action : Exec α} {next : α → Exec β}
      (first : Inward false moves action) (rest : ∀ value, Inward assigns moves (next value)) :
      Inward assigns moves (action >>= next)
  /-- A look at the values and the variables. -/
  | inspect {α : Type} {assigns moves : Bool} (next : Array Value → Globals → Exec α)
      (rest : ∀ stack globals, Inward assigns moves (next stack globals)) :
      Inward assigns moves (get >>= fun machine => next machine.stack machine.globals)
  | onStack {assigns moves : Bool} (change : Array Value → Array Value)
      (sized : ∀ stack, (change stack).size = stack.size) :
      Inward assigns moves (modify fun machine => { machine with stack := change machine.stack })
  | assign {moves : Bool} (name : String) (value : Value) :
      Inward true moves (modify fun machine =>
        { machine with globals := machine.globals.insert name value })
  | push {assigns moves : Bool} (value : Value) : Inward assigns moves (push value)
  | pop {assigns moves : Bool} : Inward assigns moves pop
  | peek {assigns moves : Bool} : Inward assigns moves peek
  | frame {assigns moves : Bool} : Inward assigns moves frame
  | goTo {assigns : Bool} (ip : Nat) : Inward assigns true (goTo ip)

namespace Inward

variable {assigns moves : Bool}

theorem constant (index : Nat) : Inward assigns moves (constant index) := by
  apply bind frame
  intro running
  split
  · exact pure _
  · exact throw rfl

theorem name (index : Nat) : Inward assigns moves (name index) := by
  apply bind (constant index)
  intro entry
  split
  · exact pure _
  · exact throw rfl

theorem place (slot : Nat) : Inward assigns moves (place slot) := by
  apply bind frame
  intro running
  apply inspect fun stack _ =>
    if running.base + slot < stack.size then Pure.pure (running.base + slot)
    else MonadExcept.throw (.missingLocal slot)
  intro stack _
  split
  · exact pure _
  · exact throw rfl

theorem loadConstant (index : Nat) : Inward assigns moves (loadConstant index) := by
  apply bind (constant index)
  intro entry
  apply bind frame
  intro running
  exact push _

theorem negate : Inward assigns moves negate := by
  apply bind pop
  intro operand
  split
  · exact push _
  · exact throw rfl

theorem logicalNot : Inward assigns moves logicalNot :=
  bind pop fun _ => push _

theorem add : Inward assigns moves add := by
  apply bind pop
  intro right
  apply bind pop
  intro left
  split
  · exact push _
  · exact push _
  · exact throw rfl

theorem numeric (operation : Float → Float → Value) : Inward assigns moves (numeric operation) := by
  apply bind pop
  intro right
  apply bind pop
  intro left
  split
  · exact push _
  · exact throw rfl

theorem equal : Inward assigns moves equal :=
  bind pop fun _ => bind pop fun _ => push _

theorem defineGlobal (index : Nat) : Inward true moves (defineGlobal index) := by
  apply bind (name index)
  intro variableName
  apply bind pop
  intro value
  exact assign variableName value

theorem getGlobal_eq (index : Nat) :
    Exec.getGlobal index = (do
      let variableName ← Exec.name index
      (← get).globals[variableName]?.elim (MonadExcept.throw (.undefinedVariable variableName))
        Exec.push) := by
  rw [Exec.getGlobal]
  congr 1
  funext variableName
  congr 1
  funext machine
  cases machine.globals[variableName]? <;> rfl

theorem getGlobal (index : Nat) : Inward assigns moves (getGlobal index) := by
  rw [getGlobal_eq]
  apply bind (name index)
  intro variableName
  apply inspect fun _ globals =>
    globals[variableName]?.elim (MonadExcept.throw (.undefinedVariable variableName)) Exec.push
  intro _ globals
  cases globals[variableName]? with
  | some value => exact push value
  | none => exact throw rfl

theorem setGlobal (index : Nat) : Inward true moves (setGlobal index) := by
  apply bind (name index)
  intro variableName
  apply bind peek
  intro value
  apply inspect fun _ globals =>
    if globals.contains variableName then
      modify fun machine => { machine with globals := machine.globals.insert variableName value }
    else MonadExcept.throw (.undefinedVariable variableName)
  intro _ globals
  split
  · exact assign variableName value
  · exact throw rfl

theorem getLocal_eq (slot : Nat) :
    Exec.getLocal slot = (do
      let index ← Exec.place slot
      (← get).stack[index]?.elim (MonadExcept.throw (.missingLocal slot)) Exec.push) := by
  rw [Exec.getLocal]
  congr 1
  funext index
  congr 1
  funext machine
  cases machine.stack[index]? <;> rfl

theorem getLocal (slot : Nat) : Inward assigns moves (getLocal slot) := by
  rw [getLocal_eq]
  apply bind (place slot)
  intro index
  apply inspect fun stack _ =>
    stack[index]?.elim (MonadExcept.throw (.missingLocal slot)) Exec.push
  intro stack _
  cases stack[index]? with
  | some value => exact push value
  | none => exact throw rfl

theorem setLocal (slot : Nat) : Inward assigns moves (setLocal slot) := by
  apply bind (place slot)
  intro index
  apply bind peek
  intro value
  exact onStack (·.setIfInBounds index value) fun _ => Array.size_setIfInBounds

theorem jump (distance : Nat) : Inward assigns true (jump distance) :=
  bind frame fun _ => goTo _

theorem jumpIfFalse (distance : Nat) : Inward assigns true (jumpIfFalse distance) := by
  apply bind peek
  intro value
  split
  · exact jump _
  · exact pure _

theorem loop (distance : Nat) : Inward assigns true (loop distance) := by
  apply bind frame
  intro running
  split
  · exact throw rfl
  · exact goTo _

end Inward

/-- All other instructions do something inward and yield no result. -/
theorem execute_cases (instruction : Instruction) :
    (∃ (α : Type) (action : Exec α), Inward true instruction.isJump action ∧
      execute instruction = action >>= fun _ => pure none) ∨
    instruction = .print ∨ (∃ count, instruction = .call count) ∨ instruction = .ret := by
  cases instruction with
  | print => exact .inr (.inl rfl)
  | call count => exact .inr (.inr (.inl ⟨count, rfl⟩))
  | ret => exact .inr (.inr (.inr rfl))
  | constant index => exact .inl ⟨_, _, .loadConstant index, rfl⟩
  | negate => exact .inl ⟨_, _, .negate, rfl⟩
  | add => exact .inl ⟨_, _, .add, rfl⟩
  | subtract | multiply | divide | greater | less => exact .inl ⟨_, _, .numeric _, rfl⟩
  | loadNil | loadTrue | loadFalse => exact .inl ⟨_, _, .push _, rfl⟩
  | logicalNot => exact .inl ⟨_, _, .logicalNot, rfl⟩
  | equal => exact .inl ⟨_, _, .equal, rfl⟩
  | pop => exact .inl ⟨_, _, .pop, rfl⟩
  | defineGlobal index => exact .inl ⟨_, _, .defineGlobal index, rfl⟩
  | setGlobal index => exact .inl ⟨_, _, .setGlobal index, rfl⟩
  | getGlobal index => exact .inl ⟨_, _, .getGlobal index, rfl⟩
  | getLocal slot => exact .inl ⟨_, _, .getLocal slot, rfl⟩
  | setLocal slot => exact .inl ⟨_, _, .setLocal slot, rfl⟩
  | jump distance => exact .inl ⟨_, _, .jump distance, rfl⟩
  | jumpIfFalse distance => exact .inl ⟨_, _, .jumpIfFalse distance, rfl⟩
  | loop distance => exact .inl ⟨_, _, .loop distance, rfl⟩

/-- A new call: the only place, apart from the stack, where the bounds are asked for. -/
def enter (callee : Callable) (base : Nat) : Exec (Option Value) := fun machine =>
  if machine.config.maxFrames ≤ machine.frames.size then .error .stackOverflow machine
  else .ok none { machine with frames := machine.frames.push ⟨callee, 0, base⟩ }

theorem executeCall_cases (count : Nat) (stack : Array Value) :
    (∃ fault : Fault, fault.isLost = false ∧ ∀ machine : Machine, machine.stack = stack →
      execute (.call count) machine = .error fault machine) ∨
    ∃ callee base, ∀ machine : Machine, machine.stack = stack →
      execute (.call count) machine = enter callee base machine := by
  by_cases enough : count + 1 ≤ stack.size
  · have inside : stack.size - (count + 1) < stack.size := by omega
    have held := Array.getElem?_eq_getElem inside
    generalize stack[stack.size - (count + 1)] = called at held
    cases called with
    | function callee =>
      by_cases matching : callee.function.arity = count
      · refine .inr ⟨callee, stack.size - (count + 1), ?_⟩
        rintro machine rfl
        exact (execute_call held enough).trans (if_neg (not_not_intro matching))
      · refine .inl ⟨.wrongArgumentCount callee.function.arity count, rfl, ?_⟩
        rintro machine rfl
        exact (execute_call held enough).trans (if_pos matching)
    | _ =>
      refine .inl ⟨.notCallable, rfl, ?_⟩
      rintro machine rfl
      exact execute_call held enough
  · refine .inl ⟨.stackUnderflow, rfl, ?_⟩
    rintro machine rfl
    have few : machine.stack.size < count + 1 := Nat.not_le.mp enough
    simp only [execute, call, bind_apply, get_apply, if_pos few, throw_apply]

/-! ## What an inward action does to a machine -/

end Exec

namespace Machine

/-- Whether the values have room. -/
def HasRoom (machine : Machine) : Prop :=
  machine.stack.size ≤ machine.config.stackSize

/-- Whether `after` has the bounds and the output of `machine`. -/
structure Quiet (machine after : Machine) : Prop where
  config_eq : after.config = machine.config
  sink_eq : after.sink = machine.sink

theorem Quiet.trans {machine middle after : Machine} (first : machine.Quiet middle)
    (second : middle.Quiet after) : machine.Quiet after :=
  ⟨second.config_eq.trans first.config_eq, second.sink_eq.trans first.sink_eq⟩

/--
Whether `after` is `machine` but for its values, its variables and, if it `moves`, the place that
the innermost call has come to.
-/
structure Stays (moves : Bool) (machine after : Machine) : Prop extends machine.Quiet after where
  frames_eq : after.frames = machine.frames ∨ moves = true ∧ ∃ frame ip,
    machine.frames.back? = some frame ∧ after.frames = machine.frames.pop.push { frame with ip }
  room : machine.HasRoom → after.HasRoom

namespace Stays

variable {moves : Bool} {machine middle after : Machine} {frame : Frame}

theorem refl (moves : Bool) (machine : Machine) : machine.Stays moves machine :=
  ⟨⟨rfl, rfl⟩, .inl rfl, id⟩

theorem exists_ip (stays : machine.Stays moves after)
    (innermost : machine.frames.back? = some frame) :
    ∃ ip, after.frames = machine.frames.pop.push { frame with ip } := by
  rcases stays.frames_eq with same | ⟨-, other, ip, innermostToo, moved⟩
  · exact ⟨frame.ip, same.trans (frames_eq_push innermost)⟩
  · cases innermost.symm.trans innermostToo
    exact ⟨ip, moved⟩

theorem trans (first : machine.Stays moves middle) (second : middle.Stays moves after) :
    machine.Stays moves after := by
  refine ⟨first.toQuiet.trans second.toQuiet, ?_, second.room ∘ first.room⟩
  rcases first.frames_eq with same | ⟨may, frame, ip, innermost, moved⟩
  · exact same ▸ second.frames_eq
  · rcases second.exists_ip (by rw [moved, Array.back?_push]) with ⟨next, movedOn⟩
    exact .inr ⟨may, frame, next, innermost, by rw [movedOn, moved, Array.pop_push]⟩

theorem eq_none (stays : machine.Stays moves after) (lost : after.frames.back? = none) :
    machine.frames.back? = none := by
  rcases stays.frames_eq with same | ⟨-, frame, ip, -, moved⟩
  · exact same ▸ lost
  · rw [moved, Array.back?_push] at lost
    cases lost

end Stays

end Machine

namespace Exec

variable {α β : Type} {assigns moves : Bool} {machine : Machine} {frame : Frame}

/-- How an inward action ends. It misses a call only if there is none. -/
inductive Ends (assigns moves : Bool) (machine : Machine) :
    EStateM.Result Fault Machine α → Prop where
  | ok {value : α} {after : Machine} (stays : machine.Stays moves after)
      (globals_eq : after.globals = machine.globals ∨ assigns = true ∧ ∃ name value,
        after.globals = machine.globals.insert name value) :
      Ends assigns moves machine (.ok value after)
  | error {fault : Fault} {after : Machine} (stays : machine.Stays moves after)
      (globals_eq : after.globals = machine.globals)
      (own : fault.isLost = true → machine.frames.back? = none) :
      Ends assigns moves machine (.error fault after)

theorem Ends.refused {fault : Fault} (own : fault.isLost = false) :
    Ends assigns moves machine (.error fault machine : EStateM.Result Fault Machine α) :=
  .error (.refl moves machine) rfl (by simp [own])

theorem Ends.bind {action : Exec α} {next : α → Exec β}
    (first : Ends false moves machine (action machine))
    (rest : ∀ value after, Ends assigns moves after (next value after)) :
    Ends assigns moves machine ((action >>= next) machine) := by
  rw [bind_apply]
  generalize action machine = result at first
  cases first with
  | @ok value middle stays globalsEq =>
    have same : middle.globals = machine.globals := globalsEq.resolve_right (by simp)
    have onward := rest value middle
    simp only
    generalize next value middle = last at onward
    cases onward with
    | ok staysToo globalsEqToo => exact .ok (stays.trans staysToo) (same ▸ globalsEqToo)
    | error staysToo globalsEqToo own =>
      exact .error (stays.trans staysToo) (globalsEqToo.trans same) (stays.eq_none ∘ own)
  | error stays globalsEq own => exact .error stays globalsEq own

theorem Inward.ends {action : Exec α} (inward : Inward assigns moves action) (machine : Machine) :
    Ends assigns moves machine (action machine) := by
  induction inward generalizing machine with
  | pure value => exact .ok (.refl _ machine) (.inl rfl)
  | throw own => exact .refused own
  | bind _ _ first rest => exact (first machine).bind rest
  | inspect next _ rest => exact rest _ _ machine
  | onStack change sized =>
    have fewer := Nat.le_of_eq (sized machine.stack)
    exact .ok ⟨⟨rfl, rfl⟩, .inl rfl, Nat.le_trans fewer⟩ (.inl rfl)
  | assign name value => exact .ok ⟨⟨rfl, rfl⟩, .inl rfl, id⟩ (.inr ⟨rfl, name, value, rfl⟩)
  | push value =>
    rw [Exec.push]
    split
    · next room =>
      refine .ok ⟨⟨rfl, rfl⟩, .inl rfl, fun _ => ?_⟩ (.inl rfl)
      rw [Machine.HasRoom, Array.size_push]
      exact room
    · exact .refused rfl
  | pop =>
    rw [Exec.pop]
    split
    · refine .ok ⟨⟨rfl, rfl⟩, .inl rfl, Nat.le_trans ?_⟩ (.inl rfl)
      rw [Array.size_pop]
      exact Nat.sub_le _ _
    · exact .refused rfl
  | peek =>
    rw [Exec.peek]
    split
    · exact .ok (.refl _ machine) (.inl rfl)
    · exact .refused rfl
  | frame =>
    rw [Exec.frame]
    split
    · exact .ok (.refl _ machine) (.inl rfl)
    · next lost => exact .error (.refl _ machine) rfl fun _ => lost
  | goTo ip =>
    rw [Exec.goTo]
    split
    · next innermost =>
      exact .ok ⟨⟨rfl, rfl⟩, .inr ⟨rfl, _, ip, innermost, rfl⟩, id⟩ (.inl rfl)
    · next lost => exact .error (.refl _ machine) rfl fun _ => lost

/-! ## What a step does to a machine -/

/-- What an instruction can do. -/
inductive Leads (machine : Machine) :
    Instruction → EStateM.Result Fault Machine (Option Value) → Prop where
  | goesOn {instruction : Instruction} {after : Machine}
      (stays : machine.Stays instruction.isJump after)
      (globals_eq : after.globals = machine.globals ∨ ∃ name value,
        after.globals = machine.globals.insert name value) :
      Leads machine instruction (.ok none after)
  | prints {rest : Array Value} {value : Value} {sink : Sink}
      (top : machine.stack = rest.push value)
      (writes : machine.sink.write (Value.display value ++ "\n") = (sink, none)) :
      Leads machine .print (.ok none { machine with stack := rest, sink })
  | calls {count base : Nat} {callee : Callable}
      (deeper : machine.frames.size < machine.config.maxFrames) :
      Leads machine (.call count) (.ok none { machine with
        frames := machine.frames.push ⟨callee, 0, base⟩ })
  | returns {rest : Array Value} {value : Value} {frame : Frame}
      (inside : machine.frames.pop ≠ #[])
      (room : (rest.shrink frame.base).size < machine.config.stackSize) :
      Leads machine .ret (.ok none { machine with
        frames := machine.frames.pop, stack := (rest.shrink frame.base).push value })
  | ends {rest : Array Value} {value : Value} {frame : Frame}
      (innermost : machine.frames.back? = some frame) (top : machine.stack = rest.push value)
      (outermost : machine.frames.pop = #[]) :
      Leads machine .ret (.ok (some value) { machine with
        frames := machine.frames.pop, stack := rest.shrink frame.base })
  | fails {instruction : Instruction} {fault : Fault} {after : Machine}
      (stays : machine.Stays instruction.isJump after)
      (globals_eq : after.globals = machine.globals)
      (own : fault.isLost = true → machine.frames.back? = none) :
      Leads machine instruction (.error fault after)
  | spills {rest : Array Value} {value : Value} {sink : Sink} {reason : String}
      (top : machine.stack = rest.push value)
      (writes : machine.sink.write (Value.display value ++ "\n") = (sink, some reason)) :
      Leads machine .print (.error (.outputFailed reason) { machine with stack := rest, sink })
  /-- There is no room for a result, so there was none for the value returned either. -/
  | overflows {rest : Array Value} {value : Value} {frame : Frame}
      (top : machine.stack = rest.push value)
      (full : ¬(rest.shrink frame.base).size < machine.config.stackSize) :
      Leads machine .ret (.error .stackOverflow { machine with
        frames := machine.frames.pop, stack := rest.shrink frame.base })

theorem Leads.refused {instruction : Instruction} {fault : Fault} (own : fault.isLost = false) :
    Leads machine instruction (.error fault machine) :=
  .fails (.refl _ machine) rfl (by simp [own])

theorem Ends.leads {action : Exec α} {instruction : Instruction}
    (ends : Ends assigns instruction.isJump machine (action machine)) :
    Leads machine instruction ((action >>= fun _ => pure none) machine) := by
  rw [bind_apply]
  generalize action machine = result at ends
  cases ends with
  | ok stays globalsEq => exact .goesOn stays (globalsEq.imp_right And.right)
  | error stays globalsEq own => exact .fails stays globalsEq own

theorem execute_print_empty (empty : machine.stack.back? = none) :
    execute .print machine = .error .stackUnderflow machine := by
  simp [execute, print, pop, empty]

theorem execute_ret_empty (empty : machine.stack.back? = none) :
    execute .ret machine = .error .stackUnderflow machine := by
  simp [execute, ret, pop, empty]

theorem execute_leads (instruction : Instruction) (machine : Machine) :
    Leads machine instruction (execute instruction machine) := by
  rcases execute_cases instruction with ⟨_, action, inward, executeEq⟩ | rfl | ⟨count, rfl⟩ | rfl
  · rw [executeEq]
    exact (inward.ends machine).leads
  · cases empty : machine.stack.back? with
    | none =>
      rw [execute_print_empty empty]
      exact .refused rfl
    | some value =>
      rcases Array.back?_eq_some_iff.mp empty with ⟨rest, top⟩
      rw [execute_print top]
      split
      · next writes => exact .prints top writes
      · next writes => exact .spills top writes
  · rcases executeCall_cases count machine.stack with ⟨fault, own, fails⟩ | ⟨callee, base, enters⟩
    · rw [fails machine rfl]
      exact .refused own
    · rw [enters machine rfl, enter]
      split
      · exact .refused rfl
      · next room => exact .calls (Nat.not_le.mp room)
  · cases empty : machine.stack.back? with
    | none =>
      rw [execute_ret_empty empty]
      exact .refused rfl
    | some value =>
      rcases Array.back?_eq_some_iff.mp empty with ⟨rest, top⟩
      cases innermost : machine.frames.back? with
      | none =>
        have ends := (Inward.bind .pop fun _ => .frame : Inward false false _).ends machine
        simp [execute, ret, pop_apply top, leave, Exec.frame, innermost] at ends ⊢
        cases ends with
        | error stays globalsEq own => exact .fails stays globalsEq own
      | some frame =>
        rw [execute_ret innermost top]
        split
        · next last => exact .ends innermost top (by simpa using last)
        · next inside =>
          rw [put_apply]
          split
          · next room => exact .returns (by simpa using inside) room
          · next full => exact .overflows top full

/-- Where a step finds no instruction, it fails by what the calls are, and changes nothing else. -/
theorem step_cases (frames : Array Frame) :
    (∃ fault left, (fault = .noActiveFrame → frames.back? = none) ∧
      (left = frames ∨ ∃ frame ip, frames.back? = some frame ∧
        left = frames.pop.push { frame with ip }) ∧
      ∀ machine : Machine, machine.frames = frames →
        step machine = .error fault { machine with frames := left }) ∨
    ∃ (frame : Frame) (instruction : Instruction),
      frames.back? = some frame ∧ frame.chunk.Has frame.ip instruction := by
  cases innermost : frames.back? with
  | none =>
    refine .inl ⟨.noActiveFrame, frames, fun _ => rfl, .inl rfl, ?_⟩
    rintro machine rfl
    simp [step, fetch, readOpcode, readByte, Exec.frame, innermost]
  | some frame =>
    cases reads : Instruction.decode frame.chunk.code frame.ip with
    | found instruction => exact .inr ⟨frame, instruction, rfl, reads⟩
    | outside =>
      refine .inl ⟨.codeEnd, frames, by simp, .inl rfl, ?_⟩
      rintro machine rfl
      simp [step, fetch_apply innermost, reads]
    | truncated opcode =>
      refine .inl ⟨.codeEnd, _, by simp, .inr ⟨frame, frame.chunk.size, rfl, rfl⟩, ?_⟩
      rintro machine rfl
      simp [step, fetch_apply innermost, reads, Machine.resume]
    | unknown byte =>
      refine .inl ⟨.unknownOpcode byte.toNat, _, by simp, .inr ⟨frame, frame.ip + 1, rfl, rfl⟩, ?_⟩
      rintro machine rfl
      simp [step, fetch_apply innermost, reads, Machine.resume]

theorem step_leads (machine : Machine) :
    (∃ fault after, (fault = .noActiveFrame → machine.frames.back? = none) ∧
      machine.Stays true after ∧ after.globals = machine.globals ∧
      step machine = .error fault after) ∨
    ∃ frame ip instruction, machine.frames.back? = some frame ∧
      Leads (machine.resume frame ip) instruction (step machine) := by
  rcases step_cases machine.frames with
    ⟨fault, left, own, moved, fails⟩ | ⟨frame, instruction, innermost, found⟩
  · have stays : machine.Stays true { machine with frames := left } :=
      ⟨⟨rfl, rfl⟩, moved.imp_right fun moved => ⟨rfl, moved⟩, id⟩
    exact .inl ⟨fault, _, own, stays, rfl, fails machine rfl⟩
  · exact .inr ⟨frame, _, _, innermost, step_eq innermost found ▸ execute_leads instruction _⟩

theorem leads_of_step {result : Option Value} {after : Machine}
    (stepped : step machine = .ok result after) :
    ∃ frame ip instruction, machine.frames.back? = some frame ∧
      Leads (machine.resume frame ip) instruction (.ok result after) := by
  rcases step_leads machine with ⟨_, _, _, _, _, failed⟩ | leads
  · cases stepped.symm.trans failed
  · exact stepped ▸ leads

end Exec

end StackScript
