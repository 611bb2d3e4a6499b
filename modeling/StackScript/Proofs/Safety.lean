import StackScript.Session
import StackScript.Proofs.Compiled
import StackScript.Proofs.Stepping

/-!
# Running compiled code

A machine is sound if its functions are compiled, if every call stands at an instruction whose
height is the number of slots in use, and if the outermost call is the script. A step keeps a
machine sound, and so does every run of a session.
-/

namespace StackScript

/-- Whether calls can go on once the one above them, at `base`, has returned. -/
def Waiting : List Frame → Nat → Prop
  | [], base => base = 0
  | caller :: outer, base =>
    caller.callee.function.Compiled ∧ caller.base < base ∧
    (∀ typing : caller.chunk.Typing (caller.callee.function.arity + 1),
      (caller.ip, base + 1 - caller.base) ∈ typing.reach) ∧
    Waiting outer caller.base

namespace Machine

/--
Whether the innermost call stands at one of its points. Behind the nil of the final return, nil is
on top of the stack.
-/
structure At (machine : Machine) (frame : Frame) : Prop where
  compiled : frame.callee.function.Compiled
  base_le : frame.base ≤ machine.stack.size
  stands : ∀ typing : frame.chunk.Typing (frame.callee.function.arity + 1),
    (frame.ip, machine.stack.size - frame.base) ∈ typing.reach ∨
      (frame.ip = typing.done + 1 ∧ machine.stack.size - frame.base = typing.final + 1 ∧
        machine.stack.back? = some .nil)

/-- Whether the outermost call is the script, which lies at the bottom of the stack. -/
def Rooted (machine : Machine) (script : Function) : Prop :=
  ∀ root, machine.calls.getLast? = some root →
    root.callee.function = script ∧ machine.stack[0]? = some (.function root.callee)

/-- Whether the functions in global variables are compiled. -/
abbrev Settled (machine : Machine) : Prop :=
  machine.Keeps (·.function.Compiled)

/-- What holds of a machine that runs a script. -/
structure Sound (machine : Machine) (script : Function) : Prop where
  compiled : ∃ text, compile text = .ok script
  carries : machine.Carries (·.function.Compiled) (·.function.Compiled) 0
  innermost : ∀ frame callers, machine.calls = frame :: callers →
    machine.At frame ∧ Waiting callers frame.base
  rooted : machine.Rooted script

/-! ## One step -/

variable {machine before after : Machine} {frame : Frame} {callers : List Frame}
  {instruction : Instruction} {script : Function} {value : Value}

/-- A call that stands at one of its points meets an instruction that finds what it needs. -/
theorem At.exists_instruction (standing : machine.At frame) :
    ∃ instruction, frame.chunk.Has frame.ip instruction ∧
      instruction.takes < machine.stack.size - frame.base ∧
      (instruction ≠ .ret → ∃ kind, instruction.Refers frame.chunk kind
        (frame.ip, machine.stack.size - frame.base)) := by
  rcases standing.compiled.exists_typing with ⟨typing⟩
  rcases standing.stands typing with inReach | ⟨ipEq, heightEq, _⟩
  · rcases List.mem_append.mp inReach with inBody | atEnd
    · rcases typing.flows inBody with ⟨instruction, found, flows⟩
      exact ⟨instruction, found, flows.enough, fun _ => ⟨_, flows.refers⟩⟩
    · have pointEq := List.mem_singleton.mp atEnd
      simp only [Prod.mk.injEq] at pointEq
      refine ⟨.loadNil, ?_, ?_, fun _ => ⟨.script, trivial⟩⟩
      · rw [pointEq.1]
        exact typing.finishes.1
      · rw [pointEq.2]
        exact typing.positive
  · refine ⟨.ret, ?_, ?_, fun notReturn => absurd rfl notReturn⟩
    · rw [ipEq]
      exact typing.finishes.2.1
    · rw [heightEq]
      exact Nat.succ_lt_succ typing.positive

theorem At.moves (standing : before.At frame) (found : frame.chunk.Has frame.ip instruction)
    (enough : instruction.takes < before.stack.size - frame.base)
    (moves : before.Moves frame instruction after) :
    ∃ next, after.frames = before.frames.pop.push { frame with ip := next } ∧
      after.At { frame with ip := next } := by
  rcases moves.leads with ⟨next, leads, framesEq⟩
  have sized := moves.size_eq
  have heightEq : after.stack.size - frame.base =
      before.stack.size - frame.base - instruction.takes + instruction.gives := by omega
  refine ⟨next, framesEq, standing.compiled, by simp only; omega, ?_⟩
  intro (typing : frame.chunk.Typing (frame.callee.function.arity + 1))
  simp only [heightEq]
  rcases standing.stands typing with inReach | ⟨ipEq, _, _⟩
  · rcases typing.reach_cases found inReach with flows | ⟨rfl, atDone, atFinal⟩
    · exact Or.inl (flows.onward next leads)
    · right
      refine ⟨?_, by rw [atFinal]; rfl, moves.top_eq rfl⟩
      rw [List.mem_singleton.mp leads, atDone]
      rfl
  · rw [typing.eq_ret found ipEq] at leads
    cases leads

theorem At.waits {count : Nat} (standing : before.At frame)
    (found : frame.chunk.Has frame.ip (.call count))
    (enough : count + 1 < before.stack.size - frame.base) (below : Waiting callers frame.base) :
    Waiting ({ frame with ip := frame.ip + 2 } :: callers) (before.stack.size - (count + 1)) := by
  refine ⟨standing.compiled, by simp only; omega, ?_, below⟩
  intro (typing : frame.chunk.Typing (frame.callee.function.arity + 1))
  rcases standing.stands typing with inReach | ⟨ipEq, _, _⟩
  · rcases typing.reach_cases found inReach with flows | ⟨isNil, _⟩
    · have onward := flows.onward (frame.ip + 2) (List.mem_singleton_self _)
      have heightEq : before.stack.size - frame.base - (count + 1) + 1 =
          before.stack.size - (count + 1) + 1 - frame.base := by omega
      simp only [Instruction.takes, Instruction.gives, heightEq] at onward
      exact onward
    · cases isNil
  · cases typing.eq_ret found ipEq

theorem Sound.exists_scriptTyping (sound : machine.Sound script) :
    ∃ typing : script.chunk.Typing (script.arity + 1), typing.kind = .script ∧
      typing.final = 1 := by
  rcases sound.compiled with ⟨text, compiled⟩
  rcases Function.laid_of_compile compiled with ⟨program, stops, _, _, laid⟩
  rcases laid.exists_typing with ⟨typing, kindEq, finalEq, _⟩
  exact ⟨typing, kindEq, finalEq⟩

theorem Sound.refers_of_root (sound : machine.Sound script) (running : machine.calls = [frame])
    (found : frame.chunk.Has frame.ip instruction) (notNil : instruction ≠ .loadNil)
    (notReturn : instruction ≠ .ret) :
    instruction.Refers frame.chunk .script (frame.ip, machine.stack.size - frame.base) := by
  rcases sound.innermost frame [] running with ⟨standing, _⟩
  have isRoot := (sound.rooted frame (by simp [running])).1
  subst isRoot
  rcases sound.exists_scriptTyping with ⟨typing, isScript, _⟩
  rcases standing.stands typing with inReach | ⟨ipEq, _, _⟩
  · rcases typing.reach_cases found inReach with flows | ⟨isNil, _⟩
    · have refers := flows.refers
      rwa [isScript] at refers
    · exact absurd isNil notNil
  · exact absurd (typing.eq_ret found ipEq) notReturn

section

variable (sound : before.Sound script) (running : before.calls = frame :: callers)
include sound running

theorem Sound.keeps_root (found : frame.chunk.Has frame.ip instruction)
    (enough : instruction.takes < before.stack.size - frame.base)
    (moves : before.Moves frame instruction after) : after.stack[0]? = before.stack[0]? := by
  rcases sound.innermost frame callers running with ⟨standing, below⟩
  refine moves.kept 0 (by omega) ?_
  rintro slot rfl atBottom
  cases callers with
  | cons caller outer =>
    have above := below.2.1
    omega
  | nil => exact (sound.refers_of_root running found (by simp) (by simp)).2 rfl (by omega)

theorem Sound.moved (found : frame.chunk.Has frame.ip instruction)
    (enough : instruction.takes < before.stack.size - frame.base)
    (moves : before.Moves frame instruction after)
    (carries : after.Carries (·.function.Compiled) (·.function.Compiled) 0) :
    after.Sound script ∧ after.calls ≠ [] := by
  rcases sound.innermost frame callers running with ⟨standing, below⟩
  rcases standing.moves found enough moves with ⟨next, framesEq, standingAfter⟩
  have callsEq := calls_of_push framesEq
  rw [reverse_pop running] at callsEq
  refine ⟨⟨sound.compiled, carries, ?_, ?_⟩, by simp [callsEq]⟩
  · intro top others calls
    rw [callsEq] at calls
    cases calls
    exact ⟨standingAfter, below⟩
  · intro root last
    rw [sound.keeps_root running found enough moves]
    -- The outermost call is the same one, even if it is the one that moved.
    cases callers with
    | nil =>
      simp only [callsEq, List.getLast?_singleton, Option.some.injEq] at last
      subst last
      exact sound.rooted frame (by simp [running])
    | cons caller outer =>
      refine sound.rooted root ?_
      simpa [running, callsEq, List.getLast?_cons_cons] using last

theorem Sound.called {count : Nat} {callee : Callable}
    (found : frame.chunk.Has frame.ip (.call count))
    (enough : count + 1 < before.stack.size - frame.base)
    (held : before.stack[before.stack.size - (count + 1)]? = some (.function callee))
    (matching : callee.function.arity = count)
    (framesEq : after.frames = (before.frames.pop.push { frame with ip := frame.ip + 2 }).push
      ⟨callee, 0, before.stack.size - (count + 1)⟩) (stackEq : after.stack = before.stack)
    (carries : after.Carries (·.function.Compiled) (·.function.Compiled) 0) :
    after.Sound script ∧ after.calls ≠ [] := by
  rcases sound.innermost frame callers running with ⟨standing, below⟩
  have callsEq := calls_of_push framesEq
  rw [Array.toList_push, List.reverse_append, reverse_pop running] at callsEq
  refine ⟨⟨sound.compiled, carries, ?_, ?_⟩, by simp [callsEq]⟩
  · intro top others calls
    rw [callsEq] at calls
    cases calls
    refine ⟨⟨sound.carries.stack _ _ (Nat.zero_le _) held callee rfl, ?_, ?_⟩, ?_⟩
    · rw [stackEq]
      exact Nat.sub_le _ _
    · intro typing
      have heightEq : after.stack.size - (before.stack.size - (count + 1)) =
          callee.function.arity + 1 := by
        rw [stackEq, matching]
        omega
      simp only [heightEq]
      exact Or.inl typing.enters
    · exact standing.waits found enough below
  · intro root last
    rw [stackEq]
    cases callers with
    | nil =>
      simp only [callsEq, List.reverse_cons, List.reverse_nil, List.nil_append,
        List.singleton_append, List.getLast?_cons_cons, List.getLast?_singleton,
        Option.some.injEq] at last
      subst last
      exact sound.rooted frame (by simp [running])
    | cons caller outer =>
      refine sound.rooted root ?_
      simpa [running, callsEq, List.getLast?_cons_cons] using last

end

theorem Sound.returned (sound : before.Sound script) (running : before.calls = frame :: callers)
    (enough : 1 < before.stack.size - frame.base)
    (inside : callers ≠ []) (framesEq : after.frames = before.frames.pop)
    (stackEq : after.stack = (before.stack.pop.shrink frame.base).push value)
    (carries : after.Carries (·.function.Compiled) (·.function.Compiled) 0) :
    after.Sound script ∧ after.calls ≠ [] := by
  rcases sound.innermost frame callers running with ⟨standing, below⟩
  have callsEq : after.calls = callers := by
    rw [calls, framesEq, reverse_pop running]
  have sized : after.stack.size = frame.base + 1 := by
    simp only [stackEq, Array.size_push, Array.size_shrink, Array.size_pop]
    omega
  refine ⟨⟨sound.compiled, carries, ?_, ?_⟩, by rwa [callsEq]⟩
  · intro caller outer calls
    rw [callsEq] at calls
    subst calls
    rcases below with ⟨compiled, lower, stands, rest⟩
    refine ⟨⟨compiled, by omega, ?_⟩, rest⟩
    intro typing
    rw [sized]
    exact Or.inl (stands typing)
  · intro root last
    cases callers with
    | nil => exact absurd rfl inside
    | cons caller outer =>
      have above : caller.base < frame.base := below.2.1
      have bottom : after.stack[0]? = before.stack[0]? := by
        rw [stackEq, Array.getElem?_push, if_neg (by simp; omega),
          getElem?_shrink (by omega) (by omega)]
      rw [bottom]
      refine sound.rooted root ?_
      rw [running, List.getLast?_cons_cons, ← callsEq]
      exact last

end Machine

/--
What a run of a script can come to: it fails only through a fault of the program, and returns only
nil.
-/
def Progress.Sound (script : Function) : Progress → Prop
  | .running machine => machine.Sound script ∧ machine.calls ≠ []
  | .finished (.ok value) machine => value = .nil ∧ machine.Settled
  | .finished (.error failure) machine => failure.fault.code = .runtime ∧ machine.Settled

namespace Machine

variable {machine before after : Machine} {frame : Frame} {callers : List Frame} {script : Function}
  {text : String}

theorem Sound.ended {value : Value} (sound : before.Sound script) (running : before.calls = [frame])
    (found : frame.chunk.Has frame.ip .ret) (top : before.stack.back? = some value) :
    value = .nil := by
  rcases sound.innermost frame [] running with ⟨standing, _⟩
  have isRoot := (sound.rooted frame (by simp [running])).1
  subst isRoot
  rcases sound.exists_scriptTyping with ⟨typing, isScript, _⟩
  rcases standing.stands typing with inReach | ⟨_, _, nilTop⟩
  · rcases typing.reach_cases found inReach with flows | ⟨isNil, _⟩
    · have inFunction : typing.kind = .function := flows.refers
      rw [isScript] at inFunction
      cases inFunction
    · cases isNil
  · rw [nilTop] at top
    exact (Option.some.inj top).symm

/-- What one step of a sound machine can do. No program reads the slot of its script. -/
theorem Sound.exists_step (sound : machine.Sound script) (running : machine.calls ≠ []) :
    ∃ frame callers instruction, machine.calls = frame :: callers ∧ machine.At frame ∧
      Waiting callers frame.base ∧ frame.chunk.Has frame.ip instruction ∧
      instruction.takes < machine.stack.size - frame.base ∧
      machine.Allows frame instruction (Exec.step machine) ∧
      (instruction = .getLocal 0 → 0 < frame.base) := by
  rcases List.exists_cons_of_ne_nil running with ⟨frame, callers, callsEq⟩
  rcases sound.innermost frame callers callsEq with ⟨standing, below⟩
  rcases standing.exists_instruction with ⟨instruction, found, enough, refers⟩
  refine ⟨frame, callers, instruction, callsEq, standing, below, found, enough,
    step_allows (frames_back? callsEq) found enough refers, ?_⟩
  rintro rfl
  cases callers with
  | cons caller outer => exact Nat.zero_lt_of_lt below.2.1
  | nil => exact absurd rfl ((sound.refers_of_root callsEq found (by simp) (by simp)).2 rfl)

theorem Sound.tick (sound : machine.Sound script) (running : machine.calls ≠ []) :
    Progress.Sound script machine.tick := by
  rcases sound.exists_step running with
    ⟨frame, callers, instruction, callsEq, standing, _, found, enough, allowed, _⟩
  have carried {next : Machine} (stepped : machine.Stepped frame instruction none next) :
      next.Carries (·.function.Compiled) (·.function.Compiled) 0 :=
    sound.carries.stepped (Nat.zero_le 1) (fun _ _ _ held => standing.compiled.pooled held)
      (fun _ => Nat.zero_le _) (fun _ => id) callsEq enough stepped
  rw [Machine.tick]
  generalize Exec.step machine = result at allowed
  cases result with
  | error fault after =>
    rcases allowed with ⟨isRuntime, globalsEq, _⟩
    refine ⟨isRuntime, ?_⟩
    change after.Settled
    rw [Settled, Keeps, globalsEq]
    exact sound.carries.globals
  | ok result after =>
    cases allowed.1 with
    | moved moves => exact sound.moved callsEq found enough moves (carried (.moved moves))
    | called calls held matching deeper =>
      subst calls
      exact sound.called callsEq found enough held matching rfl rfl
        (carried (.called rfl held matching deeper))
    | returned returns top inside =>
      subst returns
      have others : callers ≠ [] := by
        intro none
        have popped := reverse_pop callsEq
        rw [none, List.reverse_eq_nil_iff, Array.toList_eq_nil_iff] at popped
        exact inside popped
      exact sound.returned callsEq enough others rfl rfl (carried (.returned rfl top inside))
    | ended returns top last =>
      subst returns
      have alone := reverse_pop callsEq
      rw [last] at alone
      have callersEq : callers = [] := alone.symm
      subst callersEq
      exact ⟨sound.ended callsEq found top, sound.carries.globals⟩

/-! ## Runs -/

theorem Sound.advance (sound : machine.Sound script) (running : machine.calls ≠ [])
    (steps : Nat) : Progress.Sound script (machine.advance steps) :=
  advance_holds (Progress.Sound script) (fun _ sound => sound.1.tick sound.2) ⟨sound, running⟩ steps

theorem Settled.load (settled : machine.Settled) (compiled : compile text = .ok script) :
    Progress.Sound script (machine.load script) := by
  rw [Machine.load_eq]
  split
  · have genuine := Function.compiled_of_compile compiled
    have noParameters : script.arity = 0 := by
      rcases Function.laid_of_compile compiled with ⟨program, stops, _, _, laid⟩
      exact (Nat.succ.inj laid.length_eq).symm
    refine ⟨⟨⟨text, compiled⟩, settled.loaded (fun _ => genuine) genuine, ?_, ?_⟩,
      by simp [calls, loaded]⟩
    · intro frame callers callsEq
      cases callsEq
      refine ⟨⟨genuine, Nat.zero_le _, ?_⟩, rfl⟩
      intro typing
      have entered := typing.enters
      simp only [Callable.script, noParameters] at entered
      exact Or.inl entered
    · intro root last
      cases last
      exact ⟨rfl, rfl⟩
  · exact ⟨rfl, settled⟩

theorem Settled.interpret (settled : machine.Settled) (compiled : compile text = .ok script)
    (steps : Nat) : Progress.Sound script (machine.interpret script steps) := by
  have loaded := settled.load compiled
  rw [Machine.interpret]
  generalize machine.load script = progress at loaded
  cases progress with
  | running next => exact loaded.1.advance loaded.2 steps
  | finished outcome last => exact loaded

end Machine

theorem Progress.Sound.settled {script : Function} {outcome : Except Failure Value}
    {last : Machine} (sound : Progress.Sound script (.finished outcome last)) : last.Settled := by
  cases outcome with
  | ok value => exact sound.2
  | error failure => exact sound.2

/--
The machines that a session comes to between its programs. A text that the compiler refuses leaves
the machine alone; any other is run to its end, whatever that is.
-/
inductive Session (config : Config) (sink : Sink) : List String → Machine → Prop where
  | fresh : Session config sink [] (.fresh config sink)
  | rejected {texts : List String} {machine : Machine} {text : String} {error : CompileError}
      (earlier : Session config sink texts machine) (refused : compile text = .error error) :
      Session config sink (texts ++ [text]) machine
  | ran {texts : List String} {machine last : Machine} {text : String} {script : Function}
      {steps : Nat} {outcome : Except Failure Value} (earlier : Session config sink texts machine)
      (compiled : compile text = .ok script)
      (ends : machine.interpret script steps = .finished outcome last) :
      Session config sink (texts ++ [text]) last

theorem Session.settled {config : Config} {sink : Sink} {texts : List String} {machine : Machine}
    (session : Session config sink texts machine) : machine.Settled := by
  induction session with
  | fresh =>
    intro name value known
    simp [Machine.fresh] at known
  | rejected _ _ ih => exact ih
  | @ran _ _ _ _ _ steps _ _ compiled ends ih =>
    have ran := ih.interpret compiled steps
    rw [ends] at ran
    exact ran.settled

/--
Compiled programs never fail through damaged code: in a session, a run goes on, or returns, or
fails through a fault of its program.
-/
theorem interpret_safe {config : Config} {sink : Sink} {texts : List String} {machine : Machine}
    {text : String} {script : Function} (session : Session config sink texts machine)
    (compiled : compile text = .ok script) (steps : Nat) :
    (∃ next, machine.interpret script steps = .running next) ∨
      (∃ value last, machine.interpret script steps = .finished (.ok value) last) ∨
      ∃ failure last, machine.interpret script steps = .finished (.error failure) last ∧
        failure.fault.status.code = .runtime := by
  have ran := session.settled.interpret compiled steps
  generalize machine.interpret script steps = progress at ran
  cases progress with
  | running next => exact Or.inl ⟨next, rfl⟩
  | finished outcome last =>
    right
    cases outcome with
    | ok value => exact Or.inl ⟨value, last, rfl⟩
    | error failure => exact Or.inr ⟨failure, last, rfl, ran.1⟩

/-- Two programs for a machine that has run the first one, on a small and on a large machine. -/
theorem runs_nestedText :
    ∃ first called compared, compile nestedText = .ok first ∧ compile "f();" = .ok called ∧
      compile "print f(nil) == f;" = .ok compared ∧
      (∃ outcome last,
        (Machine.fresh ⟨16, 4⟩ (.limited 3)).interpret first 50 = .finished outcome last) ∧
      ∃ outcome last,
        (Machine.fresh ⟨64, 8⟩ .unlimited).interpret first 50 = .finished outcome last := by
  have evaluated : ((compile nestedText).toOption.any fun first =>
        ((Machine.fresh ⟨16, 4⟩ (.limited 3)).interpret first 50).ended &&
        ((Machine.fresh ⟨64, 8⟩ .unlimited).interpret first 50).ended) &&
      (compile "f();").toOption.isSome && (compile "print f(nil) == f;").toOption.isSome := by
    decide +kernel
  simp only [Bool.and_eq_true, Option.any_eq_true, Option.isSome_iff_exists] at evaluated
  rcases evaluated with ⟨⟨⟨first, compiled, small, large⟩, called, calls⟩, compared, compares⟩
  exact ⟨first, called, compared, compile_of_toOption compiled, compile_of_toOption calls,
    compile_of_toOption compares, Progress.exists_finished small, Progress.exists_finished large⟩

/-- A call in a later program of a function that an earlier one left behind. -/
theorem interpret_safe_nestedText :
    ∃ machine script, Session ⟨16, 4⟩ (.limited 3) [nestedText] machine ∧
      compile "f();" = .ok script ∧
      ((∃ next, machine.interpret script 9 = .running next) ∨
        (∃ value last, machine.interpret script 9 = .finished (.ok value) last) ∨
        ∃ failure last, machine.interpret script 9 = .finished (.error failure) last ∧
          failure.fault.status.code = .runtime) := by
  rcases runs_nestedText with ⟨first, script, _, compiledFirst, compiled, _, ⟨_, last, ends⟩, _⟩
  have session : Session ⟨16, 4⟩ (.limited 3) [nestedText] last := .ran .fresh compiledFirst ends
  exact ⟨last, script, session, compiled, interpret_safe session compiled 9⟩

end StackScript
