import StackScript.Proofs.Safety

/-!
# The discipline of the stack

How many values a function has on the stack depends on the instruction it has come to and on
nothing else. Between statements it is the number of locals that the compiler has open there.
-/

namespace StackScript

variable {machine : Machine} {script function : Function} {text : String} {frame : Frame}

/-- Whether some session runs the script. -/
def Machine.Runs (machine : Machine) (script : Function) : Prop :=
  ∃ config sink texts idle steps, Session config sink texts idle ∧
    idle.interpret script steps = .running machine

/--
Whether a function was written with `stops` between its statements, as the program of a text or as
a function in one.
-/
def Function.WrittenIn (text : String) (function : Function) (stops : List Draft) : Prop :=
  (∃ program, Grammar.Program (tokens text) program ∧ program.WritesScript function stops) ∨
    ∃ name parameters body, body.Placed ∧
      Statement.WritesFunction name parameters body function stops

theorem Machine.Runs.sound (runs : machine.Runs script) (compiled : compile text = .ok script) :
    machine.Sound script ∧ machine.calls ≠ [] := by
  rcases runs with ⟨config, sink, texts, idle, steps, session, running⟩
  have ran := session.settled.interpret compiled steps
  rw [running] at ran
  exact ran

theorem Function.WrittenIn.exists_laid {stops : List Draft}
    (written : function.WrittenIn text stops) : ∃ layout body, function.Laid layout body stops := by
  rcases written with ⟨program, derives, writes⟩ | ⟨name, parameters, body, placed, writes⟩
  · exact ⟨.script, program, laid_of_writesScript derives writes⟩
  · exact ⟨_, body, laid_of_writesFunction placed writes⟩

theorem Function.exists_writtenIn (compiled : compile text = .ok script)
    (inside : script.Within function) : ∃ stops, function.WrittenIn text stops := by
  rcases written_of_within compiled inside with rfl |
    ⟨name, parameters, body, stops, placed, writes⟩
  · rcases laid_of_compile compiled with ⟨program, stops, derives, writes, _⟩
    exact ⟨stops, Or.inl ⟨program, derives, writes⟩⟩
  · exact ⟨stops, Or.inr ⟨name, parameters, body, placed, writes⟩⟩

/-- A call that stands at one of its points has as many slots in use as the point says. -/
theorem Machine.At.mem_all (standing : machine.At frame)
    (typing : frame.chunk.Typing (frame.callee.function.arity + 1)) :
    (frame.ip, machine.stack.size - frame.base) ∈ typing.all := by
  rcases standing.stands typing with inReach | ⟨ipEq, heightEq, _⟩
  · exact typing.reach_subset inReach
  · rw [ipEq, heightEq]
    exact List.mem_append_right _ (List.mem_singleton_self _)

theorem eq_pair_of_ends {stack : Array Value} {first last : Value} (two : stack.size = 2)
    (bottom : stack[0]? = some first) (top : stack.back? = some last) :
    stack = #[first, last] := by
  rcases stack with ⟨values⟩
  match values, two with
  | [lower, upper], _ =>
    simp only [List.getElem?_toArray, List.getElem?_cons_zero, Option.some.injEq] at bottom
    simp only [List.back?_toArray, List.getLast?_cons_cons, List.getLast?_singleton,
      Option.some.injEq] at top
    rw [bottom, top]

/-- Only the script function and nil are on the stack when a script is about to return. -/
theorem Machine.Sound.stack_eq (sound : machine.Sound script) (alone : machine.frames = #[frame])
    (atEnd : frame.ip + 1 = script.chunk.size) :
    frame.callee.function = script ∧ machine.stack = #[.function frame.callee, .nil] := by
  have running : machine.calls = [frame] := by simp [calls, alone]
  rcases sound.innermost frame [] running with ⟨standing, bottom⟩
  rcases sound.rooted frame (by simp [running]) with ⟨isScript, slotZero⟩
  subst isScript
  refine ⟨rfl, ?_⟩
  rcases sound.exists_scriptTyping with ⟨typing, _, finalEq⟩
  have sizeEq := typing.size_eq
  have baseEq : frame.base = 0 := bottom
  rcases standing.stands typing with inReach | ⟨_, heightEq, nilTop⟩
  · -- The points in front of the end are not the last one.
    have inside : frame.ip < typing.done + 1 := by
      rcases List.mem_append.mp inReach with inBody | atDone
      · have present : frame.ip ∈ typing.points.map (·.1) := List.mem_map_of_mem inBody
        have before := (typing.segment.walk.lt_of_mem present).2
        simp only at before
        omega
      · have pointEq := List.mem_singleton.mp atDone
        simp only [Prod.mk.injEq] at pointEq
        omega
    have ipEq : frame.ip = typing.done + 1 := by
      have chunkEq : frame.chunk.size = frame.callee.function.chunk.size := rfl
      omega
    omega
  · rw [finalEq, baseEq] at heightEq
    exact eq_pair_of_ends heightEq slotZero nilTop

/--
Every compiled function has a height at each of its instructions. Whenever a session runs it, the
number of its values on the stack is the height of the instruction it has come to: one more than its
parameters at the first one, and the number of open locals between statements. So a script returns
nil, with nothing but itself and nil on the stack.
-/
theorem stack_discipline {text : String} {script function : Function}
    (compiled : compile text = .ok script) (inside : script.Within function) :
    (∃ stops, function.WrittenIn text stops) ∧
    (∀ stops, function.WrittenIn text stops → ∃ height : Nat → Nat,
      (∀ (other : String) (started : Function) (machine : Machine) (frame : Frame),
        compile other = .ok started → machine.Runs started →
        machine.frames.back? = some frame → frame.callee.function = function →
        frame.ip ∈ function.chunk.starts ∧
          machine.stack.size = frame.base + height frame.ip) ∧
      height 0 = function.arity + 1 ∧
      ∀ stop ∈ stops, height stop.chunk.size = stop.locals.length) ∧
    (∀ (machine : Machine) (frame : Frame), machine.Runs script → machine.frames = #[frame] →
      frame.ip + 1 = script.chunk.size →
      frame.callee.function = script ∧ machine.stack = #[.function frame.callee, .nil]) ∧
    ∀ (config : Config) (sink : Sink) (texts : List String) (idle : Machine) (steps : Nat)
      (value : Value) (last : Machine), Session config sink texts idle →
      idle.interpret script steps = .finished (.ok value) last → value = .nil := by
  refine ⟨Function.exists_writtenIn compiled inside, ?_, ?_, ?_⟩
  · intro stops written
    rcases written.exists_laid with ⟨layout, body, laid⟩
    rcases laid.exists_typing with ⟨typing, _, _, marked⟩
    refine ⟨typing.heightAt, ?_, ?_, ?_⟩
    · rintro other started machine frame compiles runs innermost rfl
      rcases runs.sound compiles with ⟨sound, _⟩
      rcases Machine.exists_callers innermost with ⟨callers, running⟩
      rcases sound.innermost frame callers running with ⟨standing, _⟩
      have present := standing.mem_all typing
      have below := standing.base_le
      refine ⟨?_, by rw [typing.heightAt_eq present]; omega⟩
      rw [Array.mem_def, typing.starts_eq laid.finished]
      exact List.mem_map_of_mem present
    · exact typing.heightAt_eq (typing.reach_subset typing.enters)
    · intro stop present
      exact typing.heightAt_eq (typing.reach_subset (marked stop present))
  · intro machine frame runs alone atEnd
    exact (runs.sound compiled).1.stack_eq alone atEnd
  · intro config sink texts idle steps value last session returned
    have ran := session.settled.interpret compiled steps
    rw [returned] at ran
    exact ran.1

theorem stack_discipline_nestedText :
    ∃ (script outer : Function) (stops : List Draft) (height : Nat → Nat),
      compile nestedText = .ok script ∧ script.Within outer ∧
      outer.WrittenIn nestedText stops ∧ height 0 = 2 ∧
      ∀ stop ∈ stops, height stop.chunk.size = stop.locals.length := by
  rcases compile_nestedText with ⟨script, outer, _, compiled, inside, _, _, arity, _⟩
  rcases stack_discipline compiled inside with ⟨⟨stops, written⟩, heights, _, _⟩
  rcases heights stops written with ⟨height, _, first, between⟩
  rw [arity] at first
  exact ⟨script, outer, stops, height, compiled, inside, written, first, between⟩

end StackScript
