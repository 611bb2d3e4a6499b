import StackScript.Proofs.StackRoom

/-!
# Orderly runs

Whatever the code is, a machine stays within its bounds, and there is always a call that goes on:
the script is the outermost one, and its return ends the run. Damaged code may take values off the
stack that belong to its caller, but the places of the calls are out of its reach.
-/

namespace StackScript

theorem Exec.execute_ret_fault {machine after : Machine} {frame : Frame} {fault : Fault}
    (room : machine.HasRoom) (innermost : machine.frames.back? = some frame)
    (failed : execute .ret machine = .error fault after) : fault = .stackUnderflow := by
  cases held : machine.stack.back? with
  | none =>
    rw [execute_ret_empty held] at failed
    cases failed
    rfl
  | some value =>
    rcases Array.back?_eq_some_iff.mp held with ⟨rest, top⟩
    have fits : (rest.shrink frame.base).size < machine.config.stackSize := by
      simp only [Machine.HasRoom, top, Array.size_push] at room
      simp only [Array.size_shrink]
      omega
    rw [execute_ret innermost top, put_apply, if_pos fits] at failed
    split at failed <;> cases failed

theorem Exec.step_fault {machine after : Machine} {frame : Frame} {fault : Fault}
    (innermost : machine.frames.back? = some frame) (failed : step machine = .error fault after) :
    fault ≠ .noActiveFrame := by
  rintro rfl
  rcases step_leads machine with ⟨_, _, own, _, _, refused⟩ | ⟨frame, ip, _, _, leads⟩
  · cases refused.symm.trans failed
    cases (own rfl).symm.trans innermost
  · rw [failed] at leads
    cases leads with
    | fails _ _ own => cases (own rfl).symm.trans Array.back?_push

/-- Whether a call of `root` whose slots begin at the bottom of the stack is the outermost one. -/
def Rooted (root : Callable) (frames : Array Frame) : Prop :=
  ∃ ip, frames[0]? = some ⟨root, ip, 0⟩

namespace Rooted

variable {root : Callable} {frames : Array Frame} {frame : Frame}

variable (rooted : Rooted root frames)
include rooted

theorem size_pos : 1 ≤ frames.size := by
  rcases rooted with ⟨ip, bottom⟩
  exact (Array.getElem?_eq_some_iff.mp bottom).1

theorem exists_innermost : ∃ frame, frames.back? = some frame := by
  have inside : frames.size - 1 < frames.size := Nat.sub_lt rooted.size_pos Nat.one_pos
  exact ⟨_, Array.back?_eq_getElem? ▸ Array.getElem?_eq_getElem inside⟩

theorem push (frame : Frame) : Rooted root (frames.push frame) := by
  have more := rooted.size_pos
  rcases rooted with ⟨ip, bottom⟩
  exact ⟨ip, by rw [Array.getElem?_push, if_neg (by omega), bottom]⟩

theorem pop (inside : frames.pop ≠ #[]) : Rooted root frames.pop := by
  have more : 0 < frames.pop.size := Array.size_pos_iff.mpr inside
  rw [Array.size_pop] at more
  rcases rooted with ⟨ip, bottom⟩
  exact ⟨ip, by rw [Array.getElem?_pop, if_pos more, bottom]⟩

theorem outermost (innermost : frames.back? = some frame) (single : frames.pop = #[]) :
    frame.callee = root ∧ frame.base = 0 := by
  rcases rooted with ⟨ip, bottom⟩
  rw [Machine.frames_eq_push innermost, single] at bottom
  cases bottom
  exact ⟨rfl, rfl⟩

theorem resume (innermost : frames.back? = some frame) (ip : Nat) :
    Rooted root (frames.pop.push { frame with ip }) := by
  by_cases single : frames.pop = #[]
  · rcases frame with ⟨callee, start, base⟩
    rcases rooted.outermost innermost single with ⟨rfl, rfl⟩
    rw [single]
    exact ⟨ip, rfl⟩
  · exact (rooted.pop single).push _

end Rooted

namespace Machine

/-- Whether a machine is within its bounds and runs `root`, perhaps with calls inside. -/
structure Orderly (config : Config) (root : Callable) (machine : Machine) : Prop where
  config_eq : machine.config = config
  room : machine.HasRoom
  depth : machine.frames.size ≤ max 1 config.maxFrames
  rooted : Rooted root machine.frames

/-- How a run stands: it goes on in good order, or it has ended and left nothing behind. -/
inductive Holds (config : Config) (root : Callable) : Progress → Prop where
  | running {machine : Machine} (orderly : Orderly config root machine) :
      Holds config root (.running machine)
  | finished {outcome : Except Failure Value} {last : Machine}
      (own : ∀ failure, outcome = .error failure → failure.fault ≠ .noActiveFrame)
      (stack_eq : last.stack = #[]) (frames_eq : last.frames = #[]) :
      Holds config root (.finished outcome last)

variable {machine : Machine} {config : Config} {root : Callable} {frame : Frame}

theorem Orderly.resume (orderly : Orderly config root machine)
    (innermost : machine.frames.back? = some frame) (ip : Nat) :
    Orderly config root (machine.resume frame ip) := by
  refine ⟨orderly.config_eq, orderly.room, ?_, orderly.rooted.resume innermost ip⟩
  have depth := orderly.depth
  rw [frames_eq_push innermost, Array.size_push] at depth
  rw [resume_frames, Array.size_push]
  exact depth

theorem Orderly.of_leads {after : Machine} {instruction : Instruction}
    (orderly : Orderly config root machine)
    (leads : Exec.Leads machine instruction (.ok none after)) : Orderly config root after := by
  have room := leads.room orderly.room
  have depth := orderly.depth
  cases leads with
  | goesOn stays _ =>
    have configEq := stays.config_eq.trans orderly.config_eq
    rcases stays.frames_eq with same | ⟨-, frame, ip, innermost, moved⟩
    · exact ⟨configEq, room, same ▸ depth, same ▸ orderly.rooted⟩
    · have resumed := orderly.resume innermost ip
      exact ⟨configEq, room, moved ▸ resumed.depth, moved ▸ resumed.rooted⟩
  | prints _ => exact ⟨orderly.config_eq, room, depth, orderly.rooted⟩
  | calls deeper =>
    refine ⟨orderly.config_eq, room, ?_, orderly.rooted.push _⟩
    rw [orderly.config_eq] at deeper
    rw [Array.size_push]
    omega
  | returns inside _ =>
    refine ⟨orderly.config_eq, room, ?_, orderly.rooted.pop inside⟩
    rw [Array.size_pop]
    omega

theorem Orderly.tick (orderly : Orderly config root machine) : Holds config root machine.tick := by
  rw [Machine.tick]
  cases stepped : Exec.step machine with
  | ok result after =>
    rcases Exec.leads_of_step stepped with ⟨frame, ip, _, innermost, leads⟩
    cases result with
    | none => exact .running ((orderly.resume innermost ip).of_leads leads)
    | some value =>
      cases leads with
      | ends innermostToo _ outermost =>
        have bottom := ((orderly.resume innermost ip).rooted.outermost innermostToo outermost).2
        exact .finished (by simp) (by simp [bottom]) outermost
  | error fault after =>
    rcases orderly.rooted.exists_innermost with ⟨frame, innermost⟩
    refine .finished ?_ rfl rfl
    rintro failure ⟨⟩
    exact Exec.step_fault innermost stepped

theorem Orderly.advance (orderly : Orderly config root machine) (steps : Nat) :
    Holds config root (machine.advance steps) := by
  refine advance_holds (Holds config root) ?_ (.running orderly) steps
  rintro machine ⟨orderly⟩
  exact orderly.tick

/-- A script that is loaded starts in good order, whatever the machine was left with before. -/
theorem interpret_holds (machine : Machine) (script : Function) (steps : Nat) :
    Holds machine.config (.script machine.runs script) (machine.interpret script steps) := by
  rw [interpret, load_eq]
  by_cases room : 0 < machine.config.stackSize
  · have start : Orderly machine.config (.script machine.runs script) (machine.loaded script) :=
      ⟨rfl, room, Nat.le_max_left 1 _, 0, rfl⟩
    rw [if_pos room]
    exact start.advance steps
  · rw [if_neg room]
    refine .finished ?_ rfl rfl
    rintro failure ⟨⟩
    simp

theorem Orderly.return_fault {failure : Failure} {last : Machine}
    (orderly : Orderly config root machine) (innermost : machine.frames.back? = some frame)
    (returns : frame.chunk.Has frame.ip .ret)
    (failed : machine.tick = .finished (.error failure) last) :
    failure.fault = .stackUnderflow := by
  rw [Machine.tick, Exec.step_eq innermost returns] at failed
  generalize executed : Exec.execute .ret _ = result at failed
  cases result with
  | ok result after => cases result <;> cases failed
  | error fault after =>
    cases failed
    have room : (machine.resume frame (frame.ip + Instruction.ret.size)).HasRoom := orderly.room
    exact Exec.execute_ret_fault room Array.back?_push executed

end Machine

/--
Whatever the code is: before every step the values and the calls are within the bounds of the
machine and the outermost call is the script with its slots at the bottom of the stack. No step
misses its call, and a return never lacks the room for its result. A run that has ended leaves
neither values nor calls behind.
-/
theorem interpret_orderly (machine : Machine) (script : Function) (steps : Nat) :
    (∀ reached, machine.interpret script steps = .running reached →
      reached.stack.size ≤ machine.config.stackSize ∧
      1 ≤ reached.frames.size ∧
      reached.frames.size ≤ max 1 machine.config.maxFrames ∧
      (∃ ip, reached.frames[0]? = some ⟨.script machine.runs script, ip, 0⟩) ∧
      ∀ frame failure last, reached.frames.back? = some frame → frame.chunk.Has frame.ip .ret →
        reached.tick = .finished (.error failure) last → failure.fault = .stackUnderflow) ∧
    ∀ outcome last, machine.interpret script steps = .finished outcome last →
      (∀ failure, outcome = .error failure → failure.fault ≠ .noActiveFrame) ∧
      last.stack = #[] ∧ last.frames = #[] := by
  have held := Machine.interpret_holds machine script steps
  constructor
  · rintro reached ran
    rw [ran] at held
    cases held with
    | running orderly =>
      refine ⟨orderly.config_eq ▸ orderly.room, orderly.rooted.size_pos, orderly.depth,
        orderly.rooted, ?_⟩
      intro frame failure last innermost returns failed
      exact orderly.return_fault innermost returns failed
  · intro outcome last ended
    rw [ended] at held
    cases held with
    | finished own stackEq framesEq => exact ⟨own, stackEq, framesEq⟩

/-- Takes two values off the stack, one of them its caller's, and returns what is then on top. -/
def plunderer : Function where
  name := "f"
  arity := 0
  chunk := ⟨#[15, 15, 0], #[], #[1, 1, 1], #[0, 1, 2]⟩

/-- Calls the function above and returns its result. -/
def plundered : Function :=
  .script ⟨#[1, 0, 24, 0, 0], #[.function plunderer], #[1, 1, 2], #[0, 2, 4]⟩

/-- A call that has emptied the whole stack, and what becomes of its return. -/
theorem interpret_orderly_plundered :
    ∃ reached frame failure last,
      (Machine.fresh ⟨2, 2⟩ .unlimited).interpret plundered 4 = .running reached ∧
      reached.frames.back? = some frame ∧ frame.base = 1 ∧ reached.stack = #[] ∧
      frame.chunk.Has frame.ip .ret ∧ reached.tick = .finished (.error failure) last ∧
      (Machine.fresh ⟨2, 2⟩ .unlimited).interpret plundered 5 = .finished (.error failure) last ∧
      reached.frames.size ≤ 2 ∧ failure.fault = .stackUnderflow ∧
      last.stack = #[] ∧ last.frames = #[] := by
  have ran : (Machine.fresh ⟨2, 2⟩ .unlimited).interpret plundered 4 = .running _ := rfl
  have ended : (Machine.fresh ⟨2, 2⟩ .unlimited).interpret plundered 5 =
      .finished (.error _) _ := rfl
  have before := (interpret_orderly (.fresh ⟨2, 2⟩ .unlimited) plundered 4).1 _ ran
  have behind := (interpret_orderly (.fresh ⟨2, 2⟩ .unlimited) plundered 5).2 _ _ ended
  rcases before with ⟨_, _, depth, _, returns⟩
  rcases behind with ⟨_, stackEq, framesEq⟩
  exact ⟨_, _, _, _, ran, rfl, rfl, rfl, rfl, rfl, ended, depth, returns _ _ _ rfl rfl rfl,
    stackEq, framesEq⟩

end StackScript
