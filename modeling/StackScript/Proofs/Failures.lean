import StackScript.Proofs.FullSink
import StackScript.Proofs.Orderliness

/-!
# Failed runs

A step may fail midway. The global variables are written last, behind everything that can fail, and
the call that failed is still the innermost one, so the line that is reported is a line of its code.
Nothing is assumed about the code.
-/

namespace StackScript

namespace Exec

variable {machine after : Machine} {frame : Frame} {fault : Fault} {name : String}
  {instruction : Instruction} {result : EStateM.Result Fault Machine (Option Value)}

theorem Leads.spares (leads : Leads machine instruction (.error fault after)) :
    after.globals = machine.globals := by
  cases leads with
  | fails _ globalsEq _ => exact globalsEq
  | spills | overflows => rfl

theorem Leads.keeps (leads : Leads machine instruction result) (present : name ∈ machine.globals) :
    name ∈ (left result).globals := by
  cases leads with
  | goesOn _ globalsEq =>
    rw [left]
    rcases globalsEq with same | ⟨variableName, value, assigned⟩
    · exact same ▸ present
    · rw [assigned]
      exact Std.TreeMap.mem_insert.mpr (.inr present)
  | fails _ globalsEq _ => exact globalsEq ▸ present
  | prints | calls | returns | ends | spills | overflows => exact present

theorem step_spares (failed : step machine = .error fault after) :
    after.globals = machine.globals := by
  rcases step_leads machine with ⟨_, _, _, _, globalsEq, refused⟩ | ⟨frame, ip, _, _, leads⟩
  · cases refused.symm.trans failed
    exact globalsEq
  · rw [failed] at leads
    exact leads.spares

theorem step_keeps (present : name ∈ machine.globals) :
    name ∈ (left (step machine)).globals := by
  rcases step_leads machine with ⟨_, _, _, _, globalsEq, refused⟩ | ⟨frame, ip, _, _, leads⟩
  · rw [refused, left, globalsEq]
    exact present
  · exact leads.keeps present

theorem step_remains (room : machine.HasRoom) (innermost : machine.frames.back? = some frame)
    (failed : step machine = .error fault after) :
    after.config = machine.config ∧
      ∃ ip, after.frames = machine.frames.pop.push { frame with ip } := by
  rcases step_leads machine with ⟨_, _, _, stays, _, refused⟩ | ⟨other, ip, _, innermostToo, leads⟩
  · cases refused.symm.trans failed
    exact ⟨stays.config_eq, stays.exists_ip innermost⟩
  · cases innermost.symm.trans innermostToo
    rw [failed] at leads
    cases leads with
    | fails stays _ _ =>
      rcases stays.exists_ip Array.back?_push with ⟨next, moved⟩
      exact ⟨stays.config_eq, next, moved.trans (by rw [Machine.resume_frames, Array.pop_push])⟩
    | spills _ => exact ⟨rfl, ip, rfl⟩
    | overflows top full =>
      -- The value returned has left its place on the stack.
      rw [Machine.HasRoom, show machine.stack = _ from top, Array.size_push] at room
      rw [Array.size_shrink, Machine.resume_config] at full
      omega

end Exec

/-! ## Runs -/

namespace Machine

variable {machine last : Machine} {config : Config} {root : Callable} {failure : Failure}
  {steps : Nat} {name : String}

theorem settle_keeps {result : EStateM.Result Fault Machine (Option Value)} (before : Option Frame)
    (present : name ∈ (Exec.left result).globals) :
    name ∈ (settle before result).machine.globals := by
  rcases result with ⟨_ | value, after⟩ | ⟨fault, after⟩ <;> exact present

theorem tick_keeps (present : name ∈ machine.globals) : name ∈ machine.tick.machine.globals :=
  settle_keeps _ (Exec.step_keeps present)

theorem advance_keeps (present : name ∈ machine.globals) (steps : Nat) :
    name ∈ (machine.advance steps).machine.globals :=
  advance_holds (name ∈ ·.machine.globals) (fun _ => tick_keeps) present steps

/--
How a machine whose innermost call is `frame` fails at its next step: `after` is what the step
leaves, and `last` what the run leaves.
-/
structure FailsIn (machine : Machine) (frame : Frame) (failure : Failure) (after last : Machine) :
    Prop where
  innermost : machine.frames.back? = some frame
  stepped : Exec.step machine = .error failure.fault after
  line_eq : failure.line = frame.chunk.lineAt frame.ip
  last_eq : last = after.reset

theorem Orderly.fails_of_tick (orderly : Orderly config root machine)
    (failed : machine.tick = .finished (.error failure) last) :
    ∃ frame after, machine.FailsIn frame failure after last := by
  rcases orderly.rooted.exists_innermost with ⟨frame, innermost⟩
  rw [Machine.tick, innermost] at failed
  cases stepped : Exec.step machine with
  | ok result after =>
    rw [stepped] at failed
    cases result <;> cases failed
  | error fault after =>
    rw [stepped] at failed
    cases failed
    exact ⟨frame, after, innermost, stepped, rfl, rfl⟩

/-- A run that fails does so at some step, and is in good order until then. -/
theorem Orderly.exists_fails (orderly : Orderly config root machine)
    (failed : machine.advance steps = .finished (.error failure) last) :
    ∃ done before frame after, done < steps ∧ machine.advance done = .running before ∧
      Orderly config root before ∧ before.FailsIn frame failure after last := by
  induction steps generalizing machine with
  | zero => cases failed
  | succ steps ih =>
    have ticked := orderly.tick
    rw [Machine.advance] at failed
    cases taken : machine.tick with
    | running next =>
      rw [taken] at failed ticked
      cases ticked with
      | running orderlyNext =>
        rcases ih orderlyNext failed with ⟨done, before, frame, after, sooner, reaches, rest⟩
        refine ⟨done + 1, before, frame, after, Nat.succ_lt_succ sooner, ?_, rest⟩
        rw [Machine.advance, taken]
        exact reaches
    | finished outcome final =>
      rw [taken] at failed
      cases failed
      rcases orderly.fails_of_tick taken with ⟨frame, after, fails⟩
      exact ⟨0, machine, frame, after, Nat.succ_pos steps, rfl, orderly, fails⟩

namespace FailsIn

variable {frame : Frame} {after : Machine}

variable (fails : machine.FailsIn frame failure after last)
include fails

theorem globals_eq : after.globals = machine.globals :=
  Exec.step_spares fails.stepped

theorem output :
    after.sink = machine.sink ∨ frame.chunk.Has frame.ip .print ∧
      ∃ value reason, machine.stack.back? = some value ∧
        machine.sink.write (Value.display value ++ "\n") = (after.sink, some reason) ∧
        failure.fault = .outputFailed reason := by
  rcases Exec.step_silent_or_prints machine with
    silent | ⟨frameToo, rest, value, innermost, prints, top⟩
  · left
    have kept := silent.kept
    rw [fails.stepped] at kept
    exact kept
  · right
    cases fails.innermost.symm.trans innermost
    refine ⟨prints, ?_⟩
    have stepped := fails.stepped
    have above : (machine.resume frame (frame.ip + Instruction.print.size)).stack =
        rest.push value := top
    rw [Exec.step_eq innermost prints, Exec.execute_print above, resume_sink] at stepped
    rcases written : machine.sink.write (Value.display value ++ "\n") with ⟨sink, _ | reason⟩
    · rw [written] at stepped
      cases stepped
    · rw [written] at stepped
      injection stepped with faultEq afterEq
      refine ⟨value, reason, by rw [top, Array.back?_push], ?_, faultEq.symm⟩
      rw [written, ← afterEq]

theorem exists_still (room : machine.HasRoom) :
    ∃ still, after.frames[machine.frames.size - 1]? = some still ∧ still.callee = frame.callee := by
  rcases Exec.step_remains room fails.innermost fails.stepped with ⟨-, ip, framesEq⟩
  refine ⟨{ frame with ip }, ?_, rfl⟩
  rw [framesEq, ← Array.size_pop, Array.getElem?_push_size]

theorem last_eq_fresh (orderly : Orderly config root machine) :
    last = { Machine.fresh config last.sink with globals := last.globals, runs := last.runs } := by
  have remains := Exec.step_remains orderly.room fails.innermost fails.stepped
  have configEq : after.config = config := remains.1.trans orderly.config_eq
  rw [fails.last_eq, ← configEq]
  rfl

end FailsIn

end Machine

/--
A run whose script was loaded and that fails does so at one step. That step has changed no global
variable, and the output only if it was to print a text that was refused. The line reported is that
of the instruction at which the innermost call stood. No instruction removes a global variable. What
is left is a new machine but for its global variables, its output and the number of its runs.
-/
theorem interpret_fails {machine loaded last : Machine} {script : Function} {steps : Nat}
    {failure : Failure} (loads : machine.load script = .running loaded)
    (failed : machine.interpret script steps = .finished (.error failure) last) :
    (∃ done before frame after still,
      done < steps ∧ machine.interpret script done = .running before ∧
      before.frames.back? = some frame ∧
      Exec.step before = .error failure.fault after ∧
      after.globals = before.globals ∧ last.globals = before.globals ∧
      last.sink = after.sink ∧
      (after.sink ≠ before.sink →
        frame.chunk.Has frame.ip .print ∧
        ∃ value reason, before.stack.back? = some value ∧
          before.sink.write (Value.display value ++ "\n") = (after.sink, some reason) ∧
          failure.fault = .outputFailed reason) ∧
      after.frames[before.frames.size - 1]? = some still ∧ still.callee = frame.callee ∧
      failure.line = still.chunk.lineAt frame.ip) ∧
    (∀ name ∈ machine.globals, name ∈ last.globals) ∧
    (∀ (instruction : Instruction) (state : Machine),
      (∀ name ∈ state.globals, name ∈ (Exec.left (Exec.execute instruction state)).globals) ∧
      ∀ fault after, Exec.execute instruction state = .error fault after →
        after.globals = state.globals) ∧
    ∀ next rounds, last.interpret next rounds =
      ({ Machine.fresh machine.config last.sink with
          globals := last.globals, runs := last.runs } : Machine).interpret next rounds := by
  have room : 0 < machine.config.stackSize := by
    rw [Machine.load_eq] at loads
    split at loads
    · assumption
    · cases loads
  have start := Machine.interpret_of_loads room script
  have orderly : Machine.Orderly machine.config (.script machine.runs script)
      (machine.loaded script) := ⟨rfl, room, Nat.le_max_left 1 _, 0, rfl⟩
  rw [start] at failed
  rcases orderly.exists_fails failed with
    ⟨done, before, frame, after, sooner, reaches, orderlyBefore, fails⟩
  rcases fails.exists_still orderlyBefore.room with ⟨still, place, calleeEq⟩
  refine ⟨⟨done, before, frame, after, still, sooner, (start done).trans reaches, fails.innermost,
    fails.stepped, fails.globals_eq, ?_, ?_, ?_, place, calleeEq, ?_⟩, ?_, ?_, ?_⟩
  · rw [fails.last_eq]
    exact fails.globals_eq
  · rw [fails.last_eq]
    rfl
  · exact fun differs => fails.output.resolve_left differs
  · rw [Frame.chunk, calleeEq]
    exact fails.line_eq
  · intro name present
    have loaded : name ∈ (machine.loaded script).globals := present
    have kept := Machine.advance_keeps loaded steps
    rw [failed] at kept
    exact kept
  · intro instruction state
    have leads := Exec.execute_leads instruction state
    exact ⟨fun name present => leads.keeps present, fun fault after failed =>
      (failed ▸ leads).spares⟩
  · intro next rounds
    exact congrArg (Machine.interpret · next rounds) (fails.last_eq_fresh orderlyBefore)

/-- Negates a text, which takes the text off the stack before it fails. -/
def negator : Function where
  name := "f"
  arity := 0
  chunk := ⟨#[1, 0, 2], #[.string "s"], #[4, 5], #[0, 2]⟩

/-- Gives a variable a value, prints that and calls the function above. -/
def negatorCalled : Function :=
  .script ⟨#[8, 16, 0, 18, 0, 14, 1, 1, 24, 0, 0], #[.string "x", .function negator],
    #[1, 1, 2, 2, 3, 3, 3], #[0, 1, 3, 5, 6, 8, 10]⟩

/-- The line is one of the function, and a run after that finds the variable and the output. -/
theorem interpret_fails_negatorCalled :
    ∃ failure last,
      (Machine.fresh ⟨3, 2⟩ .unlimited).interpret negatorCalled 8 =
        .finished (.error failure) last ∧
      failure.line = 5 ∧ last.sink.written = "true\n".toUTF8 ∧ "x" ∈ last.globals ∧
      (∃ done before frame, done < 8 ∧
        (Machine.fresh ⟨3, 2⟩ .unlimited).interpret negatorCalled done = .running before ∧
        before.frames.back? = some frame ∧ last.globals = before.globals) ∧
      last.interpret negatorCalled 8 =
        ({ Machine.fresh ⟨3, 2⟩ last.sink with
            globals := last.globals, runs := last.runs } : Machine).interpret negatorCalled 8 := by
  have loads : (Machine.fresh ⟨3, 2⟩ .unlimited).load negatorCalled = .running _ := rfl
  have ended : (Machine.fresh ⟨3, 2⟩ .unlimited).interpret negatorCalled 8 =
      .finished (.error _) _ := rfl
  rcases interpret_fails loads ended with
    ⟨⟨done, before, frame, _, _, sooner, reaches, innermost, _, _, globalsEq, _⟩, _, _, again⟩
  exact ⟨_, _, ended, by decide +kernel, by decide +kernel, by decide +kernel,
    ⟨done, before, frame, sooner, reaches, innermost, globalsEq⟩, again negatorCalled 8⟩

end StackScript
