import StackScript.Proofs.StackDiscipline
import StackScript.Proofs.StackRoom

/-!
# The discipline of calls

A call leaves alone what its caller had on the stack below the called function, and the places at
which the calls around it go on. When it returns, its value takes the place of the function and of
the arguments.
-/

namespace StackScript

variable {callers : List Frame}

/-! ## Bases -/

theorem Waiting.base_lt {base : Nat} (waits : Waiting callers base) {caller : Frame}
    (present : caller ∈ callers) : caller.base < base := by
  induction callers generalizing base with
  | nil => cases present
  | cons inner outer ih =>
    rcases waits with ⟨_, lower, _, further⟩
    rcases List.mem_cons.mp present with rfl | above
    · exact lower
    · exact Nat.lt_trans (ih further above) lower

theorem Waiting.pairwise {base : Nat} (waits : Waiting callers base) :
    callers.Pairwise fun inner outer => outer.base < inner.base := by
  induction callers generalizing base with
  | nil => exact .nil
  | cons inner outer ih =>
    rcases waits with ⟨_, _, _, further⟩
    exact .cons (fun caller present => further.base_lt present) (ih further)

namespace Machine

variable {machine before after later : Machine} {script : Function} {frame : Frame}
  {callers waiting : List Frame} {kept : List Value} {stack : Array Value}

/-- The slots of a call lie above those of the calls around it. -/
theorem Sound.bases_increase (sound : machine.Sound script) :
    (machine.frames.toList.map Frame.base).Pairwise (· < ·) := by
  rw [List.pairwise_map, ← List.pairwise_reverse]
  change machine.calls.Pairwise _
  cases running : machine.calls with
  | nil => exact .nil
  | cons frame callers =>
    rcases sound.innermost frame callers running with ⟨_, waits⟩
    exact .cons (fun caller present => waits.base_lt present) waits.pairwise

/-! ## Inside of a call -/

/--
Whether a machine is inside of a call that was made with `kept` on the stack below the called
function and that `waiting` wait for.
-/
structure Inside (machine : Machine) (waiting : List Frame) (kept : List Value) : Prop where
  goes_on : ∃ inner callee, machine.calls = inner ++ callee :: waiting ∧ callee.base = kept.length
  keeps : kept <+: machine.stack.toList

theorem Inside.base_le (inside : machine.Inside waiting kept)
    (running : machine.calls = frame :: callers) (waits : Waiting callers frame.base) :
    kept.length ≤ frame.base := by
  rcases inside.goes_on with ⟨inner, callee, callsEq, baseEq⟩
  rw [running] at callsEq
  cases inner with
  | nil =>
    cases callsEq
    exact Nat.le_of_eq baseEq.symm
  | cons top others =>
    cases callsEq
    rw [← baseEq]
    exact Nat.le_of_lt (waits.base_lt (by simp))

theorem Inside.waiting_prefix {waiting : Array Frame}
    (inside : machine.Inside waiting.toList.reverse kept) :
    waiting.toList <+: machine.frames.toList := by
  rcases inside.goes_on with ⟨inner, callee, callsEq, _⟩
  have framesEq := congrArg List.reverse callsEq
  simp only [calls, List.reverse_append, List.reverse_cons, List.reverse_reverse,
    List.append_assoc] at framesEq
  rw [framesEq]
  exact List.prefix_append _ _

theorem prefix_of_forall {other : Array Value} (keeps : kept <+: stack.toList)
    (same : ∀ place < kept.length, other[place]? = stack[place]?) : kept <+: other.toList := by
  rw [List.prefix_iff_getElem?] at keeps ⊢
  intro place inside
  rw [Array.getElem?_toList, same place inside, ← Array.getElem?_toList]
  exact keeps place inside

section

variable (inside : before.Inside waiting kept) (running : before.calls = frame :: callers)
include inside running

theorem Inside.moved {instruction : Instruction} (waits : Waiting callers frame.base)
    (enough : instruction.takes < before.stack.size - frame.base)
    (moves : before.Moves frame instruction after) : after.Inside waiting kept := by
  have above := inside.base_le running waits
  rcases inside.goes_on with ⟨inner, callee, callsEq, baseEq⟩
  rcases moves.leads with ⟨next, _, framesEq⟩
  have callsAfter := calls_of_push framesEq
  rw [reverse_pop running] at callsAfter
  refine ⟨?_, ?_⟩
  · rw [running] at callsEq
    cases inner with
    | nil =>
      cases callsEq
      exact ⟨[], { frame with ip := next }, callsAfter, baseEq⟩
    | cons top others =>
      cases callsEq
      exact ⟨{ frame with ip := next } :: others, callee, callsAfter, baseEq⟩
  · apply prefix_of_forall inside.keeps
    intro place low
    apply moves.kept place (by omega)
    intro slot _
    omega

theorem Inside.called {top : Frame} {next : Nat}
    (framesEq : after.frames = (before.frames.pop.push { frame with ip := next }).push top)
    (stackEq : after.stack = before.stack) : after.Inside waiting kept := by
  rcases inside.goes_on with ⟨inner, callee, callsEq, baseEq⟩
  have callsAfter := calls_of_push framesEq
  rw [Array.toList_push, List.reverse_append, reverse_pop running] at callsAfter
  refine ⟨?_, ?_⟩
  · rw [running] at callsEq
    cases inner with
    | nil =>
      cases callsEq
      exact ⟨[top], { frame with ip := next }, callsAfter, baseEq⟩
    | cons current others =>
      cases callsEq
      exact ⟨top :: { frame with ip := next } :: others, callee, callsAfter, baseEq⟩
  · rw [stackEq]
    exact inside.keeps

theorem Inside.returned {value : Value} (waits : Waiting callers frame.base)
    (enough : 1 < before.stack.size - frame.base) (framesEq : after.frames = before.frames.pop)
    (stackEq : after.stack = (before.stack.pop.shrink frame.base).push value)
    (deep : waiting.length < after.calls.length) : after.Inside waiting kept := by
  rcases inside.goes_on with ⟨inner, callee, callsEq, baseEq⟩
  have callsAfter : after.calls = callers := by
    rw [calls, framesEq, reverse_pop running]
  rw [running] at callsEq
  cases inner with
  | nil =>
    cases callsEq
    rw [callsAfter] at deep
    exact absurd deep (Nat.lt_irrefl _)
  | cons current others =>
    cases callsEq
    have lower : callee.base < frame.base := waits.base_lt (by simp)
    refine ⟨⟨others, callee, callsAfter, baseEq⟩, ?_⟩
    apply prefix_of_forall inside.keeps
    intro place low
    rw [stackEq, Array.getElem?_push, if_neg (by simp; omega),
      getElem?_shrink (by omega) (by omega)]

end

theorem Inside.tick (inside : before.Inside waiting kept) (sound : before.Sound script)
    (ran : before.tick = .running after) (deep : waiting.length < after.calls.length) :
    after.Inside waiting kept := by
  have going : before.calls ≠ [] := by
    rcases inside.goes_on with ⟨inner, callee, callsEq, _⟩
    simp [callsEq]
  rcases sound.exists_step going with
    ⟨frame, callers, instruction, running, _, waits, _, enough, allowed, _⟩
  rw [Machine.tick] at ran
  generalize Exec.step before = result at allowed ran
  cases result with
  | error fault next => cases ran
  | ok result next =>
    cases allowed.1 with
    | moved moves =>
      cases ran
      exact inside.moved running waits enough moves
    | called calls held matching =>
      cases ran
      exact inside.called running rfl rfl
    | returned returns top notLast =>
      subst returns
      cases ran
      exact inside.returned running waits enough rfl rfl deep
    | ended returns top last => cases ran

/-- A run stays inside of a call as long as more calls are going on than wait for it. -/
theorem Inside.advance {steps : Nat} (inside : machine.Inside waiting kept)
    (sound : machine.Sound script) (going : machine.calls ≠ [])
    (ran : machine.advance steps = .running later)
    (deep : ∀ earlier ≤ steps, ∀ middle, machine.advance earlier = .running middle →
      waiting.length < middle.calls.length) :
    later.Inside waiting kept ∧ later.Sound script := by
  induction steps generalizing machine with
  | zero =>
    cases ran
    exact ⟨inside, sound⟩
  | succ steps ih =>
    rw [Machine.advance] at ran
    split at ran
    · next next ticked =>
      have once := sound.tick going
      rw [ticked] at once
      have shifted : ∀ count, machine.advance (count + 1) = next.advance count := by
        intro count
        rw [Machine.advance, ticked]
      have stays : next.Inside waiting kept := by
        apply inside.tick sound ticked
        exact deep 1 (by omega) next (shifted 0)
      apply ih stays once.1 once.2 ran
      intro earlier fewer middle reached
      exact deep (earlier + 1) (by omega) middle ((shifted earlier).trans reached)
    · cases ran

/-! ## Entering and leaving a call -/

theorem tick_call {count : Nat} (sound : before.Sound script)
    (running : before.calls = frame :: callers) (found : frame.chunk.Has frame.ip (.call count))
    (ran : before.tick = .running after) :
    count + 1 < before.stack.size - frame.base ∧
      ∃ callee, after.frames = (before.frames.pop.push { frame with ip := frame.ip + 2 }).push
          ⟨callee, 0, before.stack.size - (count + 1)⟩ ∧ after.stack = before.stack := by
  rcases sound.innermost frame callers running with ⟨standing, _⟩
  rcases standing.exists_instruction with ⟨instruction, met, enough, _⟩
  cases met.symm.trans found
  have enough : count + 1 < before.stack.size - frame.base := enough
  have below : before.stack.size - (count + 1) < before.stack.size := by omega
  have held : (before.resume frame (frame.ip + 2)).stack[
      (before.resume frame (frame.ip + 2)).stack.size - (count + 1)]? =
      some before.stack[before.stack.size - (count + 1)] :=
    Array.getElem?_eq_getElem below
  have stepped : Exec.step before = _ :=
    (Exec.step_eq (frames_back? running) found).trans
      (Exec.execute_call held (Nat.le_of_lt (Nat.lt_of_lt_of_le enough (Nat.sub_le _ _))))
  refine ⟨enough, ?_⟩
  rw [Machine.tick, stepped] at ran
  split at ran
  · split at ran
    · cases ran
    · split at ran
      · cases ran
      · cases ran
        exact ⟨_, rfl, rfl⟩
  · cases ran

theorem tick_ret {outer : List Frame} {caller : Frame} (sound : before.Sound script)
    (room : before.HasRoom) (running : before.calls = frame :: caller :: outer)
    (found : frame.chunk.Has frame.ip .ret) :
    frame.base < before.stack.size ∧ ∃ value, before.stack.back? = some value ∧
      before.tick = .running { before with
        frames := before.frames.pop
        stack := (before.stack.pop.shrink frame.base).push value } := by
  rcases sound.innermost frame _ running with ⟨standing, _⟩
  rcases standing.exists_instruction with ⟨instruction, met, enough, _⟩
  cases met.symm.trans found
  have enough : 1 < before.stack.size - frame.base := enough
  rcases Array.eq_push_of_size_ne_zero (show before.stack.size ≠ 0 by omega) with
    ⟨rest, value, stackEq⟩
  have top : (before.resume frame (frame.ip + 1)).stack = rest.push value := stackEq
  have innermost : (before.resume frame (frame.ip + 1)).frames.back? =
      some { frame with ip := frame.ip + 1 } := by simp
  have others : before.frames.pop ≠ #[] := by
    intro none
    have popped := reverse_pop running
    simp [none] at popped
  have stepped : Exec.step before = _ :=
    (Exec.step_eq (frames_back? running) found).trans (Exec.execute_ret innermost top)
  refine ⟨by omega, value, by simp [stackEq], ?_⟩
  rw [Machine.tick, stepped, if_neg (by simpa using others), Exec.put_apply, if_pos]
  · simp [settle, stackEq, resume]
  · rw [HasRoom] at room
    simp only [Array.size_shrink, resume_config]
    omega

theorem toList_shrink (keeps : kept <+: stack.toList) (above : kept.length < stack.size) :
    (stack.pop.shrink kept.length).toList = kept := by
  have still : kept <+: (stack.pop.shrink kept.length).toList := by
    apply prefix_of_forall keeps
    intro place low
    exact getElem?_shrink low above
  apply (still.eq_of_length ?_).symm
  simp only [Array.length_toList, Array.size_shrink, Array.size_pop]
  omega

/-- The return from a call leaves what was kept for it with the result on top. -/
theorem Inside.returns {waiting : Array Frame} (inside : before.Inside waiting.toList.reverse kept)
    (sound : before.Sound script) (room : before.HasRoom) (some : waiting ≠ #[])
    (alone : before.frames = waiting.push frame) (found : frame.chunk.Has frame.ip .ret) :
    ∃ value returned, before.stack.back? = .some value ∧ before.tick = .running returned ∧
      returned.stack.toList = kept ++ [value] ∧ returned.frames = waiting := by
  have running := calls_of_push alone
  have baseEq : frame.base = kept.length := by
    rcases inside.goes_on with ⟨inner, callee, callsEq, baseEq⟩
    rw [running] at callsEq
    cases inner with
    | nil =>
      cases callsEq
      exact baseEq
    | cons top others =>
      have lengths := congrArg List.length callsEq
      simp at lengths
      omega
  cases others : waiting.toList.reverse with
  | nil => exact absurd (by simpa using others) some
  | cons caller outer =>
    rw [others] at running
    rcases tick_ret sound room running found with ⟨above, value, top, ticked⟩
    rw [baseEq] at above ticked
    refine ⟨value, _, top, ticked, ?_, by simp [alone]⟩
    rw [Array.toList_push, toList_shrink inside.keeps above]

end Machine

def recursiveText : String :=
  "fun f(a) { if (a < 1) return a; return f(a - 1); } print 1 + f(2);"

/--
Calls nest. Where a session calls a function with `count` arguments, the values below that function
stay as they are and the calls around the new one wait where they are, until the call returns; every
call has its slots above those of the calls around it. The return leaves those values with the
result on top of them, and the caller goes on behind its call.
-/
theorem call_discipline {text : String} {script : Function} {before after : Machine}
    {caller : Frame} {count : Nat} (compiled : compile text = .ok script)
    (runs : before.Runs script) (innermost : before.frames.back? = some caller)
    (calls : caller.chunk.Has caller.ip (.call count)) (entered : before.tick = .running after) :
    ∃ (kept : List Value) (waiting : Array Frame),
      kept = before.stack.toList.take (before.stack.size - (count + 1)) ∧
      kept.length + (count + 1) = before.stack.size ∧
      waiting = before.frames.pop.push { caller with ip := caller.ip + 2 } ∧
      (∃ callee, after.frames = waiting.push ⟨callee, 0, kept.length⟩) ∧
      ∀ steps later, after.advance steps = .running later →
        (∀ earlier ≤ steps, ∀ middle, after.advance earlier = .running middle →
          waiting.size < middle.frames.size) →
        kept <+: later.stack.toList ∧
        (later.frames.toList.map Frame.base).Pairwise (· < ·) ∧
        waiting.toList <+: later.frames.toList ∧
        ∀ frame, later.frames = waiting.push frame → frame.chunk.Has frame.ip .ret →
          ∃ value returned, later.stack.back? = some value ∧ later.tick = .running returned ∧
            returned.stack.toList = kept ++ [value] ∧ returned.frames = waiting := by
  rcases runs.sound compiled with ⟨sound, going⟩
  rcases Machine.exists_callers innermost with ⟨callers, running⟩
  rcases Machine.tick_call sound running calls entered with ⟨enough, callee, framesEq, stackEq⟩
  have once := sound.tick going
  rw [entered] at once
  have room : after.HasRoom := by
    rcases runs with ⟨_, _, _, idle, steps, _, reached⟩
    exact (Machine.HasRoom.interpret reached).tick entered
  generalize keptEq : before.stack.toList.take (before.stack.size - (count + 1)) = kept
  generalize waitingEq : before.frames.pop.push { caller with ip := caller.ip + 2 } = waiting
  have keptLength : kept.length = before.stack.size - (count + 1) := by simp [← keptEq]
  rw [waitingEq, ← keptLength] at framesEq
  have inside : after.Inside waiting.toList.reverse kept := by
    refine ⟨⟨[], _, Machine.calls_of_push framesEq, rfl⟩, ?_⟩
    rw [stackEq, ← keptEq]
    exact List.take_prefix _ _
  refine ⟨kept, waiting, rfl, by omega, rfl, ⟨callee, framesEq⟩, ?_⟩
  intro steps later reached deep
  have stays : later.Inside waiting.toList.reverse kept ∧ later.Sound script := by
    apply inside.advance once.1 once.2 reached
    intro earlier fewer middle passed
    simpa [Machine.calls] using deep earlier fewer middle passed
  rcases stays with ⟨insideLater, soundLater⟩
  refine ⟨insideLater.keeps, soundLater.bases_increase, insideLater.waiting_prefix, ?_⟩
  intro frame alone returns
  exact insideLater.returns soundLater (room.advance reached) (by simp [← waitingEq]) alone returns

/-- The first call of a function that calls itself, in the middle of an addition. -/
theorem call_discipline_recursiveText :
    ∃ (script : Function) (before after : Machine) (caller : Frame),
      compile recursiveText = .ok script ∧ before.Runs script ∧
      before.frames.back? = some caller ∧ caller.chunk.Has caller.ip (.call 1) ∧
      before.tick = .running after ∧
      ∃ (kept : List Value) (waiting : Array Frame),
        kept = before.stack.toList.take 2 ∧ kept.length = 2 ∧
        waiting = #[{ caller with ip := caller.ip + 2 }] ∧
        ∀ steps later, after.advance steps = .running later →
          (∀ earlier ≤ steps, ∀ middle, after.advance earlier = .running middle →
            1 < middle.frames.size) →
          kept <+: later.stack.toList ∧
          (later.frames.toList.map Frame.base).Pairwise (· < ·) ∧
          waiting.toList <+: later.frames.toList ∧
          ∀ frame, later.frames = waiting.push frame → frame.chunk.Has frame.ip .ret →
            ∃ value returned, later.stack.back? = some value ∧ later.tick = .running returned ∧
              returned.stack.toList = kept ++ [value] ∧ returned.frames = waiting := by
  have evaluated : (compile recursiveText).toOption.any (fun script =>
      let reached := (Machine.fresh ⟨16, 8⟩ .unlimited).interpret script 5
      let before := reached.machine
      !reached.ended && before.stack.size == 4 && before.frames.size == 1 &&
        !before.tick.ended && before.frames.back?.any (fun caller =>
          Instruction.decode caller.chunk.code caller.ip = .found (.call 1))) = true := by
    decide +kernel
  rcases (Option.any_eq_true _ _).mp evaluated with ⟨script, compiled, found⟩
  have compiled := compile_of_toOption compiled
  simp only [Bool.and_eq_true, Bool.not_eq_true', beq_iff_eq, Option.any_eq_true,
    decide_eq_true_eq] at found
  rcases found with ⟨⟨⟨⟨goes, stackSize⟩, framesSize⟩, enters⟩, caller, innermost, calls⟩
  have reached := Progress.eq_running goes
  have entered := Progress.eq_running enters
  generalize ((Machine.fresh ⟨16, 8⟩ .unlimited).interpret script 5).machine = before at *
  have runs : before.Runs script := ⟨_, _, [], _, 5, .fresh, reached⟩
  rcases call_discipline compiled runs innermost calls entered with
    ⟨kept, waiting, keptEq, lengthEq, waitingEq, _, stays⟩
  have alone : before.frames.pop = #[] := by
    apply Array.eq_empty_of_size_eq_zero
    rw [Array.size_pop, framesSize]
  rw [alone] at waitingEq
  rw [stackSize] at keptEq lengthEq
  refine ⟨script, before, before.tick.machine, caller, compiled, runs, innermost, calls, entered,
    kept, waiting, keptEq, by omega, waitingEq, ?_⟩
  intro steps later advanced deep
  apply stays steps later advanced
  rw [waitingEq]
  exact deep

end StackScript
