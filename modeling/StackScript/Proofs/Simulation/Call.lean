import StackScript.Proofs.Simulation.Control

/-!
# Calls

A call of the machine follows a call of the evaluation. The slots of the caller and the values that
it is computing with become part of the stack that the called function leaves alone. The argument
is by induction on the fuel, which bounds the depth of calls.
-/

namespace StackScript

open Reference

namespace Reference.State

/-- The state in front of a body. -/
def call (state : State) (routine : Routine) (arguments : List Meaning) : State :=
  { state with
    scopes := [(routine.parameters.zip arguments).reverse, [(routine.name, .function routine)]] }

end Reference.State

namespace Activation

/-- A call that another call makes. -/
def inner (call : Activation) (callee : Callable) (ip : Nat) (temps : Array Value)
    (store : Store) : Activation where
  config := call.config
  below := call.below ++ store.slots ++ temps
  callers := call.callers.push ⟨call.callee, ip, call.below.size⟩
  callee := callee
  runs := call.runs

variable {history : History} {call : Activation} {kind : DraftKind} {shape : List (List String)}
  {ip : Nat} {temps : Array Value} {store : Store} {state : State} {called : Value}
  {values : List Value} {callee : Callable} {routine : Routine} {arguments : List Meaning}

theorem stack_call (ip : Nat) (temps : Array Value) (store : Store) (called : Value)
    (values : List Value) :
    (call.machine ip (temps.push called ++ values.toArray) store).stack =
      call.below ++ store.slots ++ temps ++ (called :: values).toArray := by
  apply Array.toList_inj.mp
  simp [machine]

theorem step_call (found : call.chunk.Has ip (.call values.length)) :
    Exec.step (call.machine ip (temps.push called ++ values.toArray) store) =
      match called with
      | .function callee =>
        if callee.function.arity ≠ values.length then
          .error (.wrongArgumentCount callee.function.arity values.length)
            (call.machine (ip + 2) (temps.push called ++ values.toArray) store)
        else if call.config.maxFrames ≤ call.callers.size + 1 then
          .error .stackOverflow (call.machine (ip + 2) (temps.push called ++ values.toArray) store)
        else .ok none ((call.inner callee (ip + 2) temps store).machine 0 #[]
          ⟨(called :: values).toArray, store.globals, store.sink⟩)
      | _ =>
        .error .notCallable
          (call.machine (ip + 2) (temps.push called ++ values.toArray) store) := by
  have sizeEq : (call.machine (ip + 2) (temps.push called ++ values.toArray) store).stack.size =
      (call.below ++ store.slots ++ temps).size + (values.length + 1) := by
    rw [stack_call, Array.size_append]
    rfl
  have base : (call.machine (ip + 2) (temps.push called ++ values.toArray) store).stack.size -
      (values.length + 1) = (call.below ++ store.slots ++ temps).size := by
    omega
  have held : (call.machine (ip + 2) (temps.push called ++ values.toArray) store).stack[
      (call.machine (ip + 2) (temps.push called ++ values.toArray) store).stack.size -
        (values.length + 1)]? = some called := by
    rw [base, stack_call, Array.getElem?_append_right (Nat.le_refl _), Nat.sub_self]
    simp
  rw [step_eq found]
  refine (Exec.execute_call held (by omega)).trans ?_
  cases called with
  | function callee =>
    have entered : { call.machine (ip + 2) (temps.push (.function callee) ++ values.toArray)
        store with
          frames := (call.callers.push ⟨call.callee, ip + 2, call.below.size⟩).push
            ⟨callee, 0, (call.below ++ store.slots ++ temps).size⟩ } =
        (call.inner callee (ip + 2) temps store).machine 0 #[]
          ⟨(.function callee :: values).toArray, store.globals, store.sink⟩ := by
      simp only [machine, inner, Machine.mk.injEq, true_and, and_true]
      apply Array.toList_inj.mp
      simp
    have framesEq : (call.machine (ip + 2) (temps.push (.function callee) ++ values.toArray)
        store).frames.size = call.callers.size + 1 := by
      simp [machine]
    simp only [base, framesEq, ← entered]
    rfl
  | _ => rfl

theorem mirrors_call (known : Known history.library callee routine)
    (agreeAll : List.Forall₂ (Matches history.library) values arguments)
    (lengthEq : routine.parameters.length = arguments.length)
    (reports : Reports history store.globals store.sink state) :
    Store.Mirrors history .function [routine.parameters.reverse, [routine.name]]
      ⟨(.function callee :: values).toArray, store.globals, store.sink⟩
      (state.call routine arguments) := by
  have bound : ∀ {names : List String} {values : List Value} {meanings : List Meaning},
      names.length = meanings.length → List.Forall₂ (Matches history.library) values meanings →
      List.Forall₂ (Bound history.library .function) values (names.zip meanings) := by
    intro names values meanings sameLength agreeAll
    induction agreeAll generalizing names with
    | nil =>
      rw [List.zip_nil_right]
      exact .nil
    | cons agree _ ih =>
      cases names with
      | nil => cases sameLength
      | cons name names => exact .cons (fun _ => agree) (ih (Nat.succ.inj sameLength))
  apply Store.Mirrors.of_forall_slots
  · simp [State.shape, State.call, List.map_fst_zip (Nat.le_of_eq lengthEq)]
  · have slotsEq : (state.call routine arguments).slots =
        (routine.name, .function routine) :: routine.parameters.zip arguments := by
      simp [State.slots, State.call]
    rw [slotsEq]
    exact .cons (fun _ => .function known) (bound lengthEq agreeAll)
  · exact { reports with }

theorem Back.valued {meaning : Meaning} {after : State} {machine : Machine}
    (back : (call.inner callee ip temps store).Back history .function meaning after machine)
    (mirrors : store.Mirrors history kind shape state) :
    call.Valued history kind shape ip temps meaning { after with scopes := state.scopes }
      machine := by
  rcases back with ⟨_, value, globals, sink, rfl, agree, reports⟩
  refine ⟨value, ⟨store.slots, globals, sink⟩, ?_, agree, ?_⟩
  · simp [returned, ended, inner, machine]
  · exact .of_forall_slots mirrors.shape_eq mirrors.forall_slots { reports with }

theorem suits_function (name : String) (parameters : List String) (body : Statement) :
    (Layout.function name parameters).Suits body [parameters.reverse, [name]] := by
  refine ⟨by simp [Layout.function], by simp, ?_, ?_⟩
  · intro _
    simp [Layout.function]
  · intro loop inLoop
    cases inLoop

theorem follows_finish {α : Type} {post : α → State → Machine → Prop}
    {result : EStateM.Result Stop State α} {start stop : Nat}
    (finishes : call.chunk.HasAll [.loadNil, .ret] start stop) (inside : call.callers ≠ #[])
    (onward : (call.returned .nil store.globals store.sink).Follows history post result) :
    (call.machine start temps store).Follows history post result := by
  rcases finishes with ⟨loads, returns, _⟩
  have loadsNil : call.chunk.Has start (KeywordLiteral.nil.opcode.instruction 0) := loads
  apply follows_literal loadsNil
  exact follows_ret returns inside onward

end Activation

namespace Reference

variable {fuel : Nat} {routine : Routine} {arguments : List Meaning} {state : State}

theorem invoke_of_length_ne (lengthNe : routine.parameters.length ≠ arguments.length) :
    invoke (fuel + 1) (.function routine) arguments state =
      .error (.fault (.wrongArgumentCount routine.parameters.length arguments.length)) state := by
  rw [invoke, if_pos lengthNe]
  rfl

theorem invoke_of_length_eq (lengthEq : routine.parameters.length = arguments.length) :
    invoke (fuel + 1) (.function routine) arguments state =
      (routine.body.exec (invoke fuel) fuel routine.origin 0 >>= fun flow => do
        modify fun after => { after with scopes := state.scopes }
        match flow with
        | .returned value => return value
        | _ => return .nil) (state.call routine arguments) := by
  rw [invoke, if_neg (Decidable.not_not.mpr lengthEq)]
  rfl

end Reference

/-- The code of a function follows its body, and its caller goes on with what it returns. -/
theorem Known.follows {history : History} {call : Activation} {kind : DraftKind}
    {shape : List (List String)} {ip fuel : Nat} {temps : Array Value} {store : Store}
    {state : State} {callable : Callable} {routine : Routine} {values : List Value}
    {arguments : List Meaning} (known : Known history.library callable routine)
    (ih : Invokes history (Reference.invoke fuel))
    (mirrors : store.Mirrors history kind shape state)
    (agreeAll : List.Forall₂ (Matches history.library) values arguments)
    (lengthEq : routine.parameters.length = arguments.length) :
    ((call.inner callable ip temps store).machine 0 #[]
      ⟨(.function callable :: values).toArray, store.globals, store.sink⟩).Follows history
      (call.Valued history kind shape ip temps)
      (Reference.invoke (fuel + 1) (.function routine) arguments state) := by
  have implemented : ∃ marks, (call.inner callable ip temps store).chunk.Implements
      (.function routine.name routine.parameters) routine.body marks := known.implements
  rcases implemented with ⟨marks, done, code, finishes⟩
  have inside : (call.inner callable ip temps store).callers ≠ #[] := by
    simp [Activation.inner]
  have runs : (call.inner callable ip temps store).Runs history .function routine.origin :=
    ⟨known.run_eq, known.located, fun _ => inside⟩
  rw [invoke_of_length_eq lengthEq]
  apply Machine.Follows.bind
    (routine.body.simulated ih fuel known.placed code (fun isScript => by cases isScript)
      (Activation.suits_function _ _ _) runs
      (Activation.mirrors_call known agreeAll lengthEq mirrors.shows.reports))
  intro flow after machine reached
  cases flow with
  | normal =>
    rcases reached with ⟨storeInside, rfl, mirrorsInside⟩
    apply Activation.follows_finish finishes inside
    apply Machine.Follows.done
    exact Activation.Back.valued ⟨rfl, .nil, _, _, rfl, .nil, mirrorsInside.shows.reports⟩ mirrors
  | returned meaning =>
    apply Machine.Follows.done
    exact Activation.Back.valued reached mirrors
  | broke | continued =>
    rcases reached with ⟨loop, inLoop, _⟩
    cases inLoop

/-- The machine follows every call, however deep. -/
theorem invokes (history : History) (fuel : Nat) : Invokes history (Reference.invoke fuel) := by
  induction fuel with
  | zero =>
    intro call kind shape ip temps store state called callee values arguments _ _ _ _
    trivial
  | succ fuel ih =>
    intro call kind shape ip temps store state called callee values arguments found mirrors
      agree agreeAll
    rw [← agreeAll.length_eq] at found
    have stepped : Exec.step (call.machine ip (temps.push called ++ values.toArray) store) = _ :=
      Activation.step_call found
    cases agree with
    | @function callable routine known =>
      simp only [known.arity_eq, agreeAll.length_eq] at stepped
      by_cases lengthEq : routine.parameters.length = arguments.length
      · rw [if_neg (Decidable.not_not.mpr lengthEq)] at stepped
        split at stepped
        case isTrue full =>
          apply Machine.Follows.ofFull stepped
          right
          simpa [Activation.machine] using full
        case isFalse =>
          apply Machine.Follows.ofStep stepped
          exact known.follows ih mirrors agreeAll lengthEq
      · rw [if_pos lengthEq] at stepped
        rw [invoke_of_length_ne lengthEq]
        exact Machine.Follows.ofFault stepped mirrors.shows.reports
    | _ => exact Machine.Follows.ofFault stepped mirrors.shows.reports

end StackScript
