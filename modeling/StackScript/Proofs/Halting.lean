import Mathlib.Data.DFinsupp.WellFounded
import StackScript.Proofs.StackDiscipline
import StackScript.Proofs.Straight

/-!
# Programs without loops halt

Every step of a program without loops leads forward in the innermost call, or returns from it, or
calls a function. As the calls are bounded, what is left of them gets smaller with every step, in
the order that compares the outermost calls first.
-/

namespace StackScript

variable {texts : List String}

/-- How much of its function a call may still run, and the return. -/
def workLeft : Option Frame → Nat
  | none => 0
  | some frame => frame.chunk.size - frame.ip + 1

namespace Machine

/-- Whether the functions in global variables have no loops. -/
abbrev Onward (machine : Machine) : Prop :=
  machine.Keeps (·.function.Straight)

/-- Whether the functions at hand have no loops. -/
abbrev Straight (machine : Machine) : Prop :=
  machine.Carries (·.function.Straight) (·.function.Straight) 0

/-- How many calls can be going on. -/
def depth (machine : Machine) : Nat :=
  max 1 machine.config.maxFrames

/-- What is left of the calls, in an order that compares the outermost ones first. -/
def remaining (machine : Machine) (depth : Nat) : Lex (Fin depth → Nat) :=
  toLex fun level => workLeft machine.frames[level.val]?

variable {machine before after : Machine} {frame : Frame} {callers : List Frame}
  {instruction : Instruction} {script : Function} {next : Nat} {outer : Array Frame}

/-! ## One step -/

theorem At.forward (standing : machine.At frame) (straight : frame.callee.function.Straight)
    (found : frame.chunk.Has frame.ip instruction) :
    instruction.isLoop = false ∧ frame.chunk.LoadsStraight instruction := by
  rcases standing.compiled.exists_typing with ⟨typing⟩
  have onWay : frame.ip ∈ typing.all.map (·.1) := List.mem_map_of_mem (standing.mem_all typing)
  exact straight.of_mem typing.walk onWay found

theorem remaining_lt {depth : Nat} (framesEq : before.frames = outer.push frame)
    (within : outer.size < depth)
    (below : ∀ level < outer.size, after.frames[level]? = outer[level]?)
    (less : workLeft after.frames[outer.size]? < workLeft (some frame)) :
    after.remaining depth < before.remaining depth := by
  refine ⟨⟨outer.size, within⟩, ?_, ?_⟩
  · intro level further
    have place : level.val < outer.size := further
    apply congrArg workLeft
    rw [below level.val place, framesEq, Array.getElem?_push_lt place]
    exact Array.getElem?_eq_getElem place
  · have innermost : before.frames[outer.size]? = some frame := by simp [framesEq]
    rw [← innermost] at less
    exact less

theorem workLeft_lt (found : frame.chunk.Has frame.ip instruction) (further : frame.ip < next) :
    workLeft (some { frame with ip := next }) < workLeft (some frame) := by
  have inside : frame.ip < frame.chunk.size := by
    by_contra behind
    have missing : frame.chunk.code[frame.ip]? = none :=
      Array.getElem?_eq_none (Nat.not_lt.mp behind)
    simp [Chunk.Has, Instruction.decode, missing] at found
  have sameCode : ({ frame with ip := next } : Frame).chunk = frame.chunk := rfl
  simp only [workLeft, sameCode]
  omega

theorem remaining_lt_of_further {depth : Nat} (inner : List Frame)
    (framesEq : before.frames = outer.push frame) (within : outer.size < depth)
    (found : frame.chunk.Has frame.ip instruction) (further : frame.ip < next)
    (framesAfter : after.frames.toList = outer.toList ++ { frame with ip := next } :: inner) :
    after.remaining depth < before.remaining depth := by
  refine remaining_lt framesEq within ?_ ?_
  · intro level low
    rw [← Array.getElem?_toList, framesAfter, List.getElem?_append_left (by simpa using low),
      Array.getElem?_toList]
  · rw [← Array.getElem?_toList, framesAfter, List.getElem?_append_right (by simp),
      Array.length_toList, Nat.sub_self]
    exact workLeft_lt found further

end Machine

/-- What holds of a machine in the middle of a run without loops. -/
structure Machine.Descends (machine : Machine) (script : Function) : Prop where
  sound : machine.Sound script
  going : machine.calls ≠ []
  straight : machine.Straight
  shallow : machine.frames.size ≤ machine.depth

/-- What a step without loops comes to: the end of the run, or a machine that has less to do. -/
def Progress.Descends (before : Machine) (script : Function) : Progress → Prop
  | .running after => after.Descends script ∧ after.depth = before.depth ∧
      after.remaining before.depth < before.remaining before.depth
  | .finished _ last => last.Onward

namespace Machine

variable {machine before after last : Machine} {frame : Frame} {callers : List Frame}
  {instruction : Instruction} {script : Function} {text : String} {outcome : Except Failure Value}

theorem Descends.tick (descends : before.Descends script) :
    Progress.Descends before script before.tick := by
  rcases descends with ⟨sound, going, straight, shallow⟩
  have once := sound.tick going
  rcases sound.exists_step going with
    ⟨frame, callers, instruction, running, standing, _, found, enough, allowed, _⟩
  have known := straight.calls
  rw [running, List.forall_mem_cons] at known
  rcases standing.forward known.1 found with ⟨forward, loads⟩
  have carried {next : Machine} (stepped : before.Stepped frame instruction none next) :
      next.Straight :=
    straight.stepped (Nat.zero_le 1) loads (fun _ => Nat.zero_le _) (fun _ => id) running enough
      stepped
  have framesEq := frames_eq_push (frames_back? running)
  generalize before.frames.pop = outer at framesEq
  have within : outer.size < before.depth := by
    rw [framesEq, Array.size_push] at shallow
    exact shallow
  rw [Machine.tick] at once ⊢
  generalize Exec.step before = result at allowed once
  cases result with
  | error fault after =>
    rcases allowed with ⟨_, globalsEq, _⟩
    change after.Onward
    rw [Onward, Keeps, globalsEq]
    exact straight.globals
  | ok result after =>
    rcases allowed with ⟨stepped, setting⟩
    have depthEq : after.depth = before.depth := by rw [depth, depth, setting.config_eq]
    have popEq : before.frames.pop = outer := by rw [framesEq, Array.pop_push]
    cases stepped with
    | moved moves =>
      rcases moves.leads with ⟨next, leads, framesAfter⟩
      rw [popEq] at framesAfter
      refine ⟨⟨once.1, once.2, carried (.moved moves), ?_⟩, depthEq, ?_⟩
      · rw [depthEq, framesAfter, Array.size_push]
        exact within
      · have further := Instruction.lt_of_mem_nexts forward leads
        exact remaining_lt_of_further [] framesEq within found further
          (by rw [framesAfter, Array.toList_push])
    | @called count callee calls held matching deeper =>
      have onward := carried (.called calls held matching deeper)
      refine ⟨⟨once.1, once.2, onward, ?_⟩, depthEq, ?_⟩
      · rw [depthEq, Array.size_push, popEq, Array.size_push]
        rw [framesEq, Array.size_push] at deeper
        exact Nat.le_trans deeper (Nat.le_max_right _ _)
      · have further : frame.ip < frame.ip + 2 := by omega
        exact remaining_lt_of_further [⟨callee, 0, before.stack.size - (count + 1)⟩] framesEq
          within found further (by simp [popEq])
    | @returned value returns top inside =>
      refine ⟨⟨once.1, once.2, carried (.returned returns top inside), ?_⟩, depthEq, ?_⟩
      · rw [depthEq, popEq]
        exact Nat.le_of_lt within
      · refine remaining_lt framesEq within ?_ ?_
        · intro level _
          rw [popEq]
        · rw [popEq, Array.getElem?_eq_none (Nat.le_refl _)]
          exact Nat.succ_pos _
    | ended returns top last => exact straight.globals

/-! ## Runs -/

theorem Descends.exists_end (descends : machine.Descends script) :
    ∃ steps outcome last, machine.advance steps = .finished outcome last := by
  generalize bound : machine.depth = depth
  generalize size : machine.remaining depth = left
  induction left using WellFoundedLT.induction generalizing machine with
  | ind left ih =>
    have once := descends.tick
    cases ticked : machine.tick with
    | running next =>
      rw [ticked] at once
      rcases once with ⟨onward, depthEq, less⟩
      rw [bound] at depthEq less
      rw [size] at less
      rcases ih _ less onward depthEq rfl with ⟨steps, outcome, last, ends⟩
      refine ⟨steps + 1, outcome, last, ?_⟩
      rw [advance, ticked]
      exact ends
    | finished outcome last =>
      refine ⟨1, outcome, last, ?_⟩
      rw [advance, ticked]

theorem Descends.onward {steps : Nat} (descends : machine.Descends script)
    (ends : machine.advance steps = .finished outcome last) : last.Onward := by
  induction steps generalizing machine with
  | zero => cases ends
  | succ steps ih =>
    have once := descends.tick
    rw [advance] at ends
    generalize machine.tick = progress at once ends
    cases progress with
    | running next => exact ih once.1 ends
    | finished outcome last =>
      cases ends
      exact once

theorem Onward.loaded (onward : machine.Onward) (settled : machine.Settled)
    (room : 0 < machine.config.stackSize) (free : LoopFree text)
    (compiled : compile text = .ok script) : (machine.loaded script).Descends script := by
  have starts := settled.load compiled
  rw [load_eq, if_pos room] at starts
  have straight := Function.straight_of_compile free compiled
  exact ⟨starts.1, starts.2, Keeps.loaded onward (fun _ => straight) straight,
    Nat.le_max_left _ _⟩

theorem Onward.exists_end (onward : machine.Onward) (settled : machine.Settled)
    (free : LoopFree text) (compiled : compile text = .ok script) :
    ∃ steps outcome last, machine.interpret script steps = .finished outcome last := by
  by_cases room : 0 < machine.config.stackSize
  · simp only [Machine.interpret, load_eq, if_pos room]
    exact (onward.loaded settled room free compiled).exists_end
  · simp only [Machine.interpret, load_eq, if_neg room]
    exact ⟨0, _, _, rfl⟩

theorem Onward.interpret {steps : Nat} (onward : machine.Onward) (settled : machine.Settled)
    (free : LoopFree text) (compiled : compile text = .ok script)
    (ends : machine.interpret script steps = .finished outcome last) : last.Onward := by
  by_cases room : 0 < machine.config.stackSize
  · rw [Machine.interpret, load_eq, if_pos room] at ends
    exact (onward.loaded settled room free compiled).onward ends
  · rw [Machine.interpret, load_eq, if_neg room] at ends
    cases ends
    exact onward

end Machine

/-! ## Sessions -/

theorem Session.onward {config : Config} {sink : Sink} {machine : Machine}
    (session : Session config sink texts machine)
    (free : ∀ text ∈ texts, ∀ script, compile text = .ok script → LoopFree text) :
    machine.Onward := by
  induction session with
  | fresh =>
    intro name value known
    simp [Machine.fresh] at known
  | rejected _ _ ih => exact ih fun text present => free text (by simp [present])
  | ran earlier compiled ends ih =>
    have before := ih fun text present => free text (by simp [present])
    exact before.interpret earlier.settled (free _ (by simp) _ compiled) compiled ends

theorem exists_session (config : Config) (sink : Sink)
    (free : ∀ text ∈ texts, ∀ script, compile text = .ok script → LoopFree text) :
    ∃ machine, Session config sink texts machine := by
  induction texts using List.reverseRecOn with
  | nil => exact ⟨_, .fresh⟩
  | append_singleton texts text ih =>
    have earlierFree : ∀ text ∈ texts, ∀ script, compile text = .ok script → LoopFree text :=
      fun text present => free text (by simp [present])
    rcases ih earlierFree with ⟨machine, session⟩
    cases compiled : compile text with
    | error error => exact ⟨machine, .rejected session compiled⟩
    | ok script =>
      have textFree := free text (by simp) script compiled
      rcases (session.onward earlierFree).exists_end session.settled textFree compiled with
        ⟨steps, outcome, last, ends⟩
      exact ⟨last, .ran session compiled ends⟩

/--
Programs without loops halt. A session of texts that have no loops in them, or that do not compile,
comes to the end of each of them, and so does the next text without loops on the machine that they
leave behind, whatever functions it calls.
-/
theorem interpret_halts (config : Config) (sink : Sink) (texts : List String)
    (free : ∀ text ∈ texts, ∀ script, compile text = .ok script → LoopFree text) :
    (∃ machine, Session config sink texts machine) ∧
      ∀ (machine : Machine) (text : String) (script : Function),
        Session config sink texts machine → LoopFree text → compile text = .ok script →
        ∃ steps outcome last, machine.interpret script steps = .finished outcome last := by
  refine ⟨exists_session config sink free, ?_⟩
  intro machine text script session textFree compiled
  exact (session.onward free).exists_end session.settled textFree compiled

/-- Two functions that call each other without end. -/
def endlessText : String :=
  "fun f() { return g(); } fun g() { return f(); } f();"

/-- Those functions called twice, on a machine with room for four calls. -/
theorem interpret_halts_endlessText :
    LoopFree endlessText ∧ ∃ script machine, compile endlessText = .ok script ∧
      Session ⟨16, 4⟩ .unlimited [endlessText] machine ∧
      ∃ steps outcome last, machine.interpret script steps = .finished outcome last := by
  have evaluated : ((tokens endlessText).all fun token =>
        token.kind ≠ .keyword .whileKw ∧ token.kind ≠ .keyword .forKw) &&
      (compile endlessText).toOption.isSome := by
    decide +kernel
  rw [Bool.and_eq_true, Option.isSome_iff_exists, List.all_eq_true] at evaluated
  rcases evaluated with ⟨words, script, compiled⟩
  have compiled := compile_of_toOption compiled
  have free : LoopFree endlessText :=
    fun token present => of_decide_eq_true (words token present)
  have halts := interpret_halts ⟨16, 4⟩ .unlimited [endlessText] (by simp [free])
  rcases halts.1 with ⟨machine, session⟩
  exact ⟨free, script, machine, compiled, session,
    halts.2 machine endlessText script session free compiled⟩

end StackScript
