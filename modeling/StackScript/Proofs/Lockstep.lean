import StackScript.Proofs.Abreast
import StackScript.Proofs.Mirroring
import StackScript.Proofs.StackDiscipline

/-!
# Runs side by side

A program whose code stands in another one is run there step for step, as long as it has not come to
its end. What it calls is the same code on both machines.
-/

namespace StackScript

variable {same : Origin → Origin → Prop}

/-! ## Instructions that ask for the same -/

theorem Function.Alike.exists_constant {left right : Function} {place : Nat} {constant : Constant}
    (alike : left.Alike right) (held : left.chunk.constants[place]? = some constant) :
    ∃ twin, right.chunk.constants[place]? = some twin ∧ Constant.Alike constant twin := by
  rcases alike with ⟨_, _, _, _, all⟩
  rw [← Array.getElem?_toList] at held ⊢
  exact forall₂_getElem? all.flip held

namespace Callable

variable {left right : Callable} {instruction : Instruction}

theorem Twin.names {place : Nat} {name : String} (twin : Callable.Twin same left right)
    (named : left.function.chunk.Names place name) : right.function.chunk.Names place name := by
  rcases twin.alike.exists_constant named with ⟨constant, held, alike⟩
  cases alike
  exact held

theorem Twin.pairs {point : Nat × Nat} {offset : Nat} (faithful : Faithful same)
    (twin : Callable.Twin same left right) (found : left.function.chunk.Has offset instruction)
    (refers : instruction ≠ .ret → ∃ kind, instruction.Refers left.function.chunk kind point) :
    right.function.chunk.Has offset instruction ∧
      Callable.Pairs same left right instruction instruction := by
  constructor
  · rcases twin.alike with ⟨_, _, codeEq, _, _⟩
    rw [Chunk.Has, ← codeEq]
    exact found
  · cases instruction with
    | constant place =>
      rcases refers (by simp) with ⟨_, inside⟩
      have inside : place < left.function.chunk.constants.size := inside
      have held := Array.getElem?_eq_getElem inside
      rcases twin.alike.exists_constant held with ⟨constant, heldToo, alike⟩
      exact .constant held heldToo (twin.load faithful alike place)
    | defineGlobal place =>
      rcases refers (by simp) with ⟨_, name, named⟩
      exact .defineGlobal named (twin.names named)
    | getGlobal place =>
      rcases refers (by simp) with ⟨_, name, named⟩
      exact .getGlobal named (twin.names named)
    | setGlobal place =>
      rcases refers (by simp) with ⟨_, name, named⟩
      exact .setGlobal named (twin.names named)
    | _ => exact .same rfl

end Callable

/-- Whether the instruction of the first program at an offset asks for the same in the second. -/
def Track.Follows (track : Track) (same : Origin → Origin → Prop) (offset : Nat) : Prop :=
  ∀ instruction, track.left.function.chunk.Has offset instruction →
    ∃ twin, track.right.function.chunk.Has (offset + track.shift) twin ∧
      Callable.Pairs same track.left track.right instruction twin

/-! ## Steps -/

/-- Whether runs end in the same way. -/
def SameOutcome (same : Origin → Origin → Prop) : Except Failure Value → Except Failure Value → Prop
  | .ok value, .ok other => Value.Twin same value other
  | .error failure, .error other => failure.fault = other.fault
  | _, _ => False

/-- Whether runs have come to the same. -/
def Progress.Abreast (same : Origin → Origin → Prop) (track : Track) : Progress → Progress → Prop
  | .running left, .running right => left.Abreast same track right
  | .finished outcome left, .finished other right =>
    SameOutcome same outcome other ∧ left.SameStore same right
  | _, _ => False

namespace Machine

variable {track : Track} {left right : Machine} {script : Function}

theorem SameStore.reset (store : left.SameStore same right) :
    left.reset.SameStore same right.reset :=
  ⟨store.config_eq, store.sink_eq, store.globals⟩

theorem SameStep.settle {result another : EStateM.Result Fault Machine (Option Value)}
    (steps : SameStep same track result another) (innermost innermostToo : Option Frame) :
    Progress.Abreast same track (settle innermost result) (settle innermostToo another) := by
  cases result with
  | error fault left =>
    cases another with
    | error other right => exact ⟨steps.1, steps.2.reset⟩
    | ok value right => exact steps.elim
  | ok value left =>
    cases another with
    | error other right => cases value <;> exact steps.elim
    | ok other right =>
      cases value <;> cases other
      · exact steps
      · exact steps.elim
      · exact steps.elim
      · exact steps

theorem Abreast.tick (faithful : Faithful same) (abreast : left.Abreast same track right)
    (sound : left.Sound script) (going : left.calls ≠ [])
    (follows : ∀ ip, left.calls = [⟨track.left, ip, 0⟩] → track.Follows same ip) :
    Progress.Abreast same track left.tick right.tick := by
  rcases sound.exists_step going with
    ⟨frame, callers, instruction, running, standing, _, found, enough, _, notRoot⟩
  have refers : instruction ≠ .ret → ∃ kind,
      instruction.Refers frame.chunk kind (frame.ip, left.stack.size - frame.base) := by
    rcases standing.exists_instruction with ⟨same, foundSame, _, refers⟩
    rw [Chunk.Typing.has_unique found foundSame]
    exact refers
  have calls := abreast.calls
  rw [running] at calls
  generalize runningToo : right.calls = others at calls
  rw [Machine.tick, Machine.tick]
  apply SameStep.settle
  cases calls with
  | program ip =>
    rcases follows ip running instruction found with ⟨twin, foundToo, pairs⟩
    exact abreast.step faithful (track.heads_program ip) running runningToo found foundToo pairs
      enough refers notRoot
  | function twin ip base below =>
    rcases twin.pairs faithful found refers with ⟨foundToo, pairs⟩
    exact abreast.step faithful (below.heads_function twin ip base) running runningToo found
      foundToo pairs enough refers notRoot

theorem Abreast.advance (faithful : Faithful same) (abreast : left.Abreast same track right)
    (sound : left.Sound script) (going : left.calls ≠ [])
    (typing : track.left.function.chunk.Typing (track.left.function.arity + 1))
    (follows : ∀ point ∈ typing.all, track.Follows same point.1) (steps : Nat) :
    Progress.Abreast same track (left.advance steps) (right.advance steps) := by
  induction steps generalizing left right with
  | zero => exact abreast
  | succ steps ih =>
    have follows : ∀ ip, left.calls = [⟨track.left, ip, 0⟩] → track.Follows same ip := by
      intro ip running
      have standing := (sound.innermost _ _ running).1
      exact follows _ (standing.mem_all typing)
    have once := abreast.tick faithful sound going follows
    have still := sound.tick going
    rw [Machine.advance, Machine.advance]
    generalize left.tick = progress at once still
    generalize right.tick = other at once
    cases progress with
    | running next =>
      cases other with
      | running nextToo => exact ih once still.1 still.2
      | finished => exact once.elim
    | finished outcome last =>
      cases other with
      | running => exact once.elim
      | finished outcomeToo lastToo => exact once

/-! ## Up to the end of a program -/

/-- Whether a program is not at its end. -/
def Short (machine : Machine) {chunk : Chunk Constant} {entry : Nat}
    (typing : chunk.Typing entry) : Prop :=
  ∀ frame, machine.calls = [frame] → (frame.ip, machine.stack.size - frame.base) ∈ typing.reach

variable {frame : Frame} {next last : Machine} {value : Value}

theorem Sound.short (sound : left.Sound script) (typing : script.chunk.Typing (script.arity + 1))
    (going : left.calls ≠ []) (short : left.Short typing)
    (notDone : ∀ frame, left.calls = [frame] → frame.ip ≠ typing.done)
    (ticked : left.tick = .running next) : next.Short typing := by
  rcases sound.exists_step going with
    ⟨frame, callers, instruction, running, standing, waits, found, enough, allowed, _⟩
  rw [Machine.tick] at ticked
  generalize Exec.step left = result at allowed ticked
  cases result with
  | error fault after => cases ticked
  | ok result after =>
    cases allowed.1 with
    | moved moves =>
      cases ticked
      rcases moves.leads with ⟨onward, leads, framesEq⟩
      have callsEq := calls_of_push framesEq
      rw [reverse_pop running] at callsEq
      intro root alone
      rw [callsEq] at alone
      cases alone
      have isRoot := (sound.rooted frame (by simp [running])).1
      subst isRoot
      rcases typing.reach_cases found (short frame running) with flows | ⟨_, atDone, _⟩
      · have sized := moves.size_eq
        have heightEq : next.stack.size - frame.base =
            left.stack.size - frame.base - instruction.takes + instruction.gives := by omega
        rw [heightEq]
        exact flows.onward onward leads
      · exact absurd atDone (notDone frame running)
    | called calls held matching =>
      cases ticked
      intro root alone
      rw [calls_of_push rfl, Array.toList_push, List.reverse_append] at alone
      cases alone
    | returned returns top inside =>
      cases ticked
      intro root alone
      rw [calls, reverse_pop running] at alone
      subst alone
      have isRoot := (sound.rooted root (by simp [running])).1
      subst isRoot
      have sized : (left.stack.pop.shrink frame.base).size = frame.base := by
        simp only [Array.size_shrink, Array.size_pop]
        omega
      rw [Array.size_push, sized]
      exact waits.2.2.1 typing
    | ended returns top last => cases ticked

theorem Sound.not_ended (sound : left.Sound script)
    (typing : script.chunk.Typing (script.arity + 1)) (isScript : typing.kind = .script)
    (going : left.calls ≠ []) (short : left.Short typing) :
    left.tick ≠ .finished (.ok value) last := by
  intro ticked
  rcases sound.exists_step going with
    ⟨frame, callers, instruction, running, standing, _, found, _, allowed, _⟩
  rw [Machine.tick] at ticked
  generalize Exec.step left = result at allowed ticked
  cases result with
  | error fault after => cases ticked
  | ok result after =>
    cases allowed.1 with
    | ended returns top atLast =>
      subst returns
      have alone := reverse_pop running
      rw [atLast] at alone
      have callersEq : callers = [] := alone.symm
      subst callersEq
      have isRoot := (sound.rooted frame (by simp [running])).1
      subst isRoot
      rcases typing.reach_cases found (short frame running) with flows | ⟨isNil, _⟩
      · have inFunction : typing.kind = .function := flows.refers
        rw [isScript] at inFunction
        cases inFunction
      · cases isNil
    | _ => cases ticked

theorem tick_loadNil {callers : List Frame} (running : left.calls = frame :: callers)
    (loads : frame.chunk.Has frame.ip .loadNil) :
    (∃ next, left.tick = .running next ∧
        next.calls = { frame with ip := frame.ip + 1 } :: callers ∧
        next.stack = left.stack.push .nil ∧ next.config = left.config ∧ next.sink = left.sink ∧
        next.globals = left.globals) ∨
      ∃ failure last, left.tick = .finished (.error failure) last := by
  have loaded : Exec.step left = Exec.put .nil (left.resume frame (frame.ip + 1)) :=
    Exec.step_eq (frames_back? running) loads
  rw [Exec.put_apply] at loaded
  rw [Machine.tick, loaded]
  split
  · exact Or.inl ⟨_, rfl, calls_resume running _, rfl, rfl, rfl, rfl⟩
  · exact Or.inr ⟨_, _, rfl⟩

theorem tick_ret_alone {stack : Array Value} (running : left.calls = [frame])
    (returns : frame.chunk.Has frame.ip .ret) (top : left.stack = stack.push value) :
    left.tick = .finished (.ok value) { left with
      frames := left.frames.pop, stack := stack.shrink frame.base } := by
  have alone : left.frames.pop = #[] := by
    simpa using pop_isEmpty running
  have moved : (left.resume frame (frame.ip + 1)).frames.back? =
      some { frame with ip := frame.ip + 1 } := by simp
  have onTop : (left.resume frame (frame.ip + 1)).stack = stack.push value := top
  have returned := Exec.execute_ret moved onTop
  rw [Machine.tick, Exec.step_eq (frames_back? running) returns]
  change settle _ (Exec.execute .ret (left.resume frame (frame.ip + 1))) = _
  rw [returned, if_pos (by simp [alone])]
  simp [settle, resume]

theorem store_of_return {steps : Nat} (running : left.calls = [frame])
    (loads : frame.chunk.Has frame.ip .loadNil) (returns : frame.chunk.Has (frame.ip + 1) .ret)
    (ends : left.advance steps = .finished (.ok value) last) :
    last.config = left.config ∧ last.sink = left.sink ∧ last.globals = left.globals := by
  rcases steps with _ | steps
  · cases ends
  · rw [advance] at ends
    rcases tick_loadNil running loads with
      ⟨next, loaded, runningStill, stackEq, configEq, sinkEq, globalsEq⟩ | ⟨_, _, failed⟩
    · simp only [loaded] at ends
      rcases steps with _ | steps
      · cases ends
      · rw [advance, tick_ret_alone runningStill returns stackEq] at ends
        cases ends
        exact ⟨configEq, sinkEq, globalsEq⟩
    · rw [failed] at ends
      cases ends

theorem Abreast.alone (abreast : left.Abreast same track right) (running : left.calls = [frame]) :
    ∃ ip, frame = ⟨track.left, ip, 0⟩ ∧ right.calls = [⟨track.right, ip + track.shift, 0⟩] := by
  have calls := abreast.calls
  rw [running] at calls
  generalize right.calls = others at calls
  cases calls with
  | program ip => exact ⟨ip, rfl, rfl⟩
  | function _ _ _ below => cases below

section Seam

variable {value : Value} {steps : Nat}
  (typing : track.left.function.chunk.Typing (track.left.function.arity + 1))

structure Seam (same : Origin → Origin → Prop) (track : Track)
    (typing : track.left.function.chunk.Typing (track.left.function.arity + 1))
    (last reached : Machine) : Prop where
  calls_eq : reached.calls = [⟨track.right, typing.done + track.shift, 0⟩]
  size_eq : reached.stack.size = typing.final
  store : last.SameStore same reached

theorem Abreast.seam (abreast : left.Abreast same track right)
    (running : left.calls = [⟨track.left, typing.done, 0⟩]) (short : left.Short typing)
    (ends : left.advance steps = .finished (.ok value) last) :
    Seam same track typing last right := by
  have loads : track.left.function.chunk.Has typing.done .loadNil := typing.finishes.1
  have returns : track.left.function.chunk.Has (typing.done + 1) .ret := typing.finishes.2.1
  rcases store_of_return running loads returns ends with ⟨configEq, sinkEq, globalsEq⟩
  rcases abreast.alone running with ⟨ip, sameFrame, runningToo⟩
  cases sameFrame
  have here := typing.heightAt_eq (typing.reach_subset (short _ running))
  have atDone : (typing.done, typing.final) ∈ typing.reach :=
    List.mem_append_right _ (List.mem_singleton_self _)
  rw [typing.heightAt_eq (typing.reach_subset atDone)] at here
  refine ⟨runningToo, ?_, ?_, ?_, ?_⟩
  · rw [abreast.stack.size_eq, here]
    rfl
  · rw [abreast.config_eq, configEq]
  · rw [abreast.sink_eq, sinkEq]
  · rw [globalsEq]
    exact abreast.globals

theorem Abreast.exists_seam (faithful : Faithful same) (abreast : left.Abreast same track right)
    (sound : left.Sound track.left.function) (going : left.calls ≠ [])
    (isScript : typing.kind = .script) (short : left.Short typing)
    (follows : ∀ point ∈ typing.points, track.Follows same point.1)
    (ends : left.advance steps = .finished (.ok value) last) :
    ∃ more reached, right.advance more = .running reached ∧
      Seam same track typing last reached := by
  induction steps generalizing left right with
  | zero => cases ends
  | succ steps ih =>
    by_cases atSeam : left.calls = [⟨track.left, typing.done, 0⟩]
    · exact ⟨0, right, rfl, abreast.seam typing atSeam short ends⟩
    · have notDone : ∀ frame, left.calls = [frame] → frame.ip ≠ typing.done := by
        intro frame running atDone
        rcases abreast.alone running with ⟨ip, rfl, _⟩
        cases atDone
        exact atSeam running
      have followsHere : ∀ ip, left.calls = [⟨track.left, ip, 0⟩] → track.Follows same ip := by
        intro ip running
        rcases List.mem_append.mp (short _ running) with inBody | atEnd
        · exact follows _ inBody
        · have pointEq := List.mem_singleton.mp atEnd
          simp only [Prod.mk.injEq] at pointEq
          exact absurd pointEq.1 (notDone _ running)
      have once := abreast.tick faithful sound going followsHere
      have still := sound.tick going
      rw [Machine.advance] at ends
      cases ticked : left.tick with
      | finished outcome ended =>
        rw [ticked] at ends
        cases ends
        exact absurd ticked (sound.not_ended typing isScript going short)
      | running next =>
        have shortNext := sound.short typing going short notDone ticked
        rw [ticked] at once still ends
        cases tickedToo : right.tick with
        | finished =>
          rw [tickedToo] at once
          exact once.elim
        | running nextToo =>
          rw [tickedToo] at once
          rcases ih once still.1 still.2 shortNext ends with ⟨more, reached, ran, seam⟩
          refine ⟨more + 1, reached, ?_, seam⟩
          rw [Machine.advance, tickedToo]
          exact ran

end Seam

end Machine

end StackScript
