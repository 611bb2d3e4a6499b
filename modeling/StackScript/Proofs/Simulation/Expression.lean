import StackScript.Proofs.Mirroring

/-!
# The code of expressions

The code of an expression follows its evaluation and leaves the value on top of the values that the
call was computing with. What a call of a function does is left open here: `Invokes` is what the
code around it needs to know.
-/

namespace StackScript

open Activation
open Machine (Follows)
open Reference

/-- Where a machine is behind a value. -/
def Activation.Valued (history : History) (call : Activation) (kind : DraftKind)
    (shape : List (List String)) (stop : Nat) (temps : Array Value) (meaning : Meaning)
    (state : State) (machine : Machine) : Prop :=
  ∃ value store, machine = call.machine stop (temps.push value) store ∧
    Matches history.library value meaning ∧ store.Mirrors history kind shape state

/-- Whether a call follows `invoke`. -/
def Invokes (history : History) (invoke : Meaning → List Meaning → Eval Meaning) : Prop :=
  ∀ {call : Activation} {kind : DraftKind} {shape : List (List String)} {ip : Nat}
    {temps : Array Value} {store : Store} {state : State} {called : Value} {callee : Meaning}
    {values : List Value} {arguments : List Meaning},
    call.chunk.Has ip (.call arguments.length) → store.Mirrors history kind shape state →
    Matches history.library called callee →
    List.Forall₂ (Matches history.library) values arguments →
    (call.machine ip (temps.push called ++ values.toArray) store).Follows history
      (call.Valued history kind shape (ip + 2) temps) (invoke callee arguments state)

def Expression.Simulated (history : History) (invoke : Meaning → List Meaning → Eval Meaning)
    (expression : Expression) : Prop :=
  ∀ {call : Activation} {kind : DraftKind} {shape : List (List String)} {start stop : Nat}
    {temps : Array Value} {store : Store} {state : State},
    expression.CodeAt call.chunk shape.flatten start stop →
    (kind = .script → expression.Named) → store.Mirrors history kind shape state →
    (call.machine start temps store).Follows history
      (call.Valued history kind shape stop temps) (expression.eval invoke state)

variable {history : History} {call : Activation} {kind : DraftKind} {shape : List (List String)}
  {ip start stop : Nat} {temps : Array Value} {store : Store} {state : State} {name : String}
  {value other : Value} {meaning another : Meaning}
  {invoke : Meaning → List Meaning → Eval Meaning}

theorem Datum.onNumbers_not {F : Type} (test : Float → Float → Bool) (left right : Datum F) :
    Datum.onNumbers (fun left right => .bool (!test left right)) left right =
      (Datum.onNumbers (fun left right => .bool (test left right)) left right).map
        fun result => .bool result.isFalsey := by
  cases left <;> cases right <;> rfl

namespace Activation

variable {outcome : Except Fault Meaning} {instruction : Instruction}
  {operation : Value → Value → Except Fault Value}

/-! ## Variables -/

theorem follows_find (accesses : call.chunk.Accesses shape.flatten name .getLocal .getGlobal ip)
    (named : kind = .script → name ≠ "") (mirrors : store.Mirrors history kind shape state) :
    (call.machine ip temps store).Follows history
      (call.Valued history kind shape (ip + 2) temps) (find name state) := by
  rcases accesses with ⟨slot, resolved, found⟩ | ⟨unresolved, place, found, held⟩
  · rcases mirrors.exists_slot resolved named with ⟨value, meaning, held, known, agree⟩
    rw [find_of_local known]
    apply follows_getLocal found held
    apply Follows.done
    exact ⟨value, store, rfl, agree, mirrors⟩
  · have agree := mirrors.shows.reports.globals name
    have stepped := (step_eq found).trans
      (Exec.execute_getGlobal (innermost (ip + 2) temps store) held)
    have globalsEq (next : Nat) : (call.machine next temps store).globals = store.globals := rfl
    rw [globalsEq] at stepped
    rw [find_of_not_local (mirrors.lookup_eq_none unresolved)]
    generalize store.globals[name]? = value at agree stepped
    generalize state.globals[name]? = meaning at agree
    cases agree with
    | none => exact Follows.ofFault stepped mirrors.shows.reports
    | some agree =>
      apply follows_put (Nat.le_refl _) stepped
      apply Follows.done
      exact ⟨_, store, rfl, agree, mirrors⟩

theorem follows_assign (accesses : call.chunk.Accesses shape.flatten name .setLocal .setGlobal ip)
    (mirrors : store.Mirrors history kind shape state)
    (agree : Matches history.library value meaning) :
    (call.machine ip (temps.push value) store).Follows history
      (fun _ => call.Valued history kind shape (ip + 2) temps meaning)
      (assign name meaning state) := by
  rcases accesses with ⟨slot, resolved, found⟩ | ⟨unresolved, place, found, held⟩
  · rcases mirrors.set_slot resolved agree with ⟨inside, scopes, assigned, mirrorsAfter⟩
    rw [assign_of_local assigned]
    apply follows_setLocal found inside
    apply Follows.done
    exact ⟨value, _, rfl, agree, mirrorsAfter⟩
  · have present := mirrors.shows.reports.globals name
    have stepped := (step_eq found).trans
      (Exec.execute_setGlobal (innermost (ip + 2) (temps.push value) store) held
        (stack_push _ _ _ _))
    rw [Std.TreeMap.contains_eq_isSome_getElem?] at stepped
    change _ = (if (store.globals[name]?).isSome then _ else _) at stepped
    rw [assign_of_not_local (mirrors.assignIn?_eq_none unresolved meaning)]
    generalize store.globals[name]? = bound at present stepped
    generalize state.globals[name]? = meant at present
    cases present with
    | none => exact Follows.ofFault stepped mirrors.shows.reports
    | some _ =>
      apply Follows.ofStep stepped
      apply Follows.done
      refine ⟨value, { store with globals := store.globals.insert name value }, rfl, agree, ?_⟩
      exact .of_forall_slots mirrors.shape_eq mirrors.forall_slots
        (mirrors.shows.reports.insert name agree)

/-! ## Operators -/

theorem follows_lift {before : Array Value} {next : Nat} {computed : Except Fault Value}
    (yields : Yields history.library computed outcome)
    (stepped : Exec.step (call.machine ip before store) =
      Exec.settleResult (call.machine next temps store) computed) (fewer : temps.size ≤ before.size)
    (mirrors : store.Mirrors history kind shape state) :
    (call.machine ip before store).Follows history
      (call.Valued history kind shape next temps) (lift outcome state) := by
  cases computed with
  | error fault =>
    cases outcome with
    | error reason =>
      cases (yields : fault = reason)
      exact Follows.ofFault stepped mirrors.shows.reports
    | ok meaning => exact False.elim yields
  | ok value =>
    cases outcome with
    | error reason => exact False.elim yields
    | ok meaning =>
      apply follows_put fewer stepped
      apply Follows.done
      exact ⟨value, store, rfl, yields, mirrors⟩

theorem follows_unary {operator : UnaryOperator}
    (found : call.chunk.Has ip (operator.opcode.instruction 0))
    (mirrors : store.Mirrors history kind shape state)
    (agree : Matches history.library value meaning) :
    (call.machine ip (temps.push value) store).Follows history
      (call.Valued history kind shape (ip + 1) temps) (lift (operator.apply meaning) state) := by
  have computes : ∃ operation, Exec.unary? (operator.opcode.instruction 0) = some operation ∧
      Yields history.library (operation value) (operator.apply meaning) := by
    cases operator with
    | negate => exact ⟨_, rfl, agree.negative⟩
    | not =>
      refine ⟨_, rfl, ?_⟩
      change Matches history.library (.bool value.isFalsey) (.bool meaning.isFalsey)
      rw [agree.isFalsey_eq]
      exact .bool _
  rcases computes with ⟨operation, computed, yields⟩
  apply follows_lift yields _ (by simp) mirrors
  have sizeEq : (operator.opcode.instruction 0).size = 1 := by cases operator <;> rfl
  rw [step_eq found, sizeEq, Exec.execute_unary computed (stack_push _ _ _ _), pop_eq]

theorem follows_binary (found : call.chunk.Has ip instruction) (sizeEq : instruction.size = 1)
    (computes : Exec.binary? instruction = some operation)
    (yields : Yields history.library (operation value other) outcome)
    (mirrors : store.Mirrors history kind shape state) :
    (call.machine ip ((temps.push value).push other) store).Follows history
      (call.Valued history kind shape (ip + 1) temps) (lift outcome state) := by
  apply follows_lift yields _ (by simp; omega) mirrors
  have top : (call.machine (ip + 1) ((temps.push value).push other) store).stack =
      ((call.machine (ip + 1) temps store).stack.push value).push other := by
    rw [stack_push, stack_push]
  rw [step_eq found, sizeEq, Exec.execute_binary computes top]
  rfl

theorem follows_opposite (found : call.chunk.Has ip instruction)
    (inverts : call.chunk.Has (ip + 1) .logicalNot) (sizeEq : instruction.size = 1)
    (computes : Exec.binary? instruction = some operation)
    (yields : Yields history.library (operation value other) outcome)
    (mirrors : store.Mirrors history kind shape state) :
    (call.machine ip ((temps.push value).push other) store).Follows history
      (call.Valued history kind shape (ip + 2) temps)
      (lift (outcome.map fun result => .bool result.isFalsey) state) := by
  have liftEq : lift (outcome.map fun result => .bool result.isFalsey) state =
      (lift outcome >>= fun result => lift (UnaryOperator.not.apply result)) state := by
    cases outcome <;> rfl
  rw [liftEq]
  apply Follows.bind (follows_binary found sizeEq computes yields mirrors)
  rintro result after _ ⟨computed, store, rfl, agree, mirrors⟩
  have inverted : call.chunk.Has (ip + 1) (UnaryOperator.not.opcode.instruction 0) := inverts
  exact follows_unary inverted mirrors agree

theorem follows_operator {operator : BinaryOperator}
    (has : call.chunk.HasAll operator.opcodes ip stop)
    (mirrors : store.Mirrors history kind shape state)
    (agree : Matches history.library value meaning)
    (agreeToo : Matches history.library other another) :
    (call.machine ip ((temps.push value).push other) store).Follows history
      (call.Valued history kind shape stop temps)
      (lift (operator.apply (fun one other => one.origin == other.origin) meaning another)
        state) := by
  have equal : Yields history.library (.ok (.bool (Value.same value other)))
      (.ok (.bool (Datum.alike (fun one other => one.origin == other.origin)
        meaning another))) := by
    rw [agree.same_eq agreeToo]
    exact .bool _
  -- Three operators are written as the opposite of another one, followed by a negation.
  cases operator with
  | notEqual =>
    rcases has with ⟨found, inverts, rfl⟩
    exact follows_opposite found inverts rfl rfl equal mirrors
  | greaterEqual =>
    rcases has with ⟨found, inverts, rfl⟩
    rw [BinaryOperator.apply, Datum.onNumbers_not]
    exact follows_opposite found inverts rfl rfl
      (agree.onNumbers agreeToo fun _ _ => .bool _) mirrors
  | lessEqual =>
    rcases has with ⟨found, inverts, rfl⟩
    rw [BinaryOperator.apply, Datum.onNumbers_not]
    exact follows_opposite found inverts rfl rfl
      (agree.onNumbers agreeToo fun _ _ => .bool _) mirrors
  | equal =>
    rcases has with ⟨found, rfl⟩
    exact follows_binary found rfl rfl equal mirrors
  | add =>
    rcases has with ⟨found, rfl⟩
    exact follows_binary found rfl rfl (agree.plus agreeToo) mirrors
  | _ =>
    rcases has with ⟨found, rfl⟩
    exact follows_binary found rfl rfl (agree.onNumbers agreeToo fun _ _ => by constructor) mirrors

end Activation

/-! ## Expressions -/

namespace Expression

variable {left right : Expression} {arguments : List Expression}

theorem and_simulated (leftFollows : left.Simulated history invoke)
    (rightFollows : right.Simulated history invoke) :
    (Expression.and left right).Simulated history invoke := by
  intro call kind shape start stop temps store state code named mirrors
  rcases code with ⟨first, codeLeft, jumps, pops, codeRight⟩
  rw [Expression.eval]
  apply Follows.bind (leftFollows codeLeft (And.left ∘ named) mirrors)
  rintro meaning after _ ⟨value, store, rfl, agree, mirrors⟩
  apply follows_jumpIfFalse jumps
  · intro falsey
    rw [if_pos (agree.isFalsey_eq ▸ falsey)]
    apply Follows.done
    exact ⟨value, store, rfl, agree, mirrors⟩
  · intro truthy
    rw [if_neg (by simp [← agree.isFalsey_eq, truthy])]
    apply follows_pop pops
    exact rightFollows codeRight (And.right ∘ named) mirrors

theorem or_simulated (leftFollows : left.Simulated history invoke)
    (rightFollows : right.Simulated history invoke) :
    (Expression.or left right).Simulated history invoke := by
  intro call kind shape start stop temps store state code named mirrors
  rcases code with ⟨first, codeLeft, jumps, leaves, pops, codeRight⟩
  rw [Expression.eval]
  apply Follows.bind (leftFollows codeLeft (And.left ∘ named) mirrors)
  rintro meaning after _ ⟨value, store, rfl, agree, mirrors⟩
  apply follows_jumpIfFalse jumps
  · intro falsey
    rw [if_pos (agree.isFalsey_eq ▸ falsey)]
    apply follows_pop pops
    exact rightFollows codeRight (And.right ∘ named) mirrors
  · intro truthy
    rw [if_neg (by simp [← agree.isFalsey_eq, truthy])]
    apply follows_jump leaves
    apply Follows.done
    exact ⟨value, store, rfl, agree, mirrors⟩

theorem all_simulated (follows : ∀ argument ∈ arguments, argument.Simulated history invoke)
    (code : Expression.AllCodeAt call.chunk shape.flatten arguments start stop)
    (named : kind = .script → Expression.AllNamed arguments)
    (mirrors : store.Mirrors history kind shape state) :
    (call.machine start temps store).Follows history
      (fun meanings after machine => meanings.length = arguments.length ∧ ∃ values store,
        machine = call.machine stop (temps ++ values.toArray) store ∧
        List.Forall₂ (Matches history.library) values meanings ∧
        store.Mirrors history kind shape after)
      (Expression.evalAll invoke arguments state) := by
  induction arguments generalizing start temps store state with
  | nil =>
    cases (code : stop = start)
    rw [Expression.evalAll]
    apply Follows.done
    exact ⟨rfl, [], store, by simp, .nil, mirrors⟩
  | cons first rest ih =>
    rcases code with ⟨middle, codeFirst, codeRest⟩
    rw [Expression.evalAll]
    apply Follows.bind (follows first List.mem_cons_self codeFirst (And.left ∘ named) mirrors)
    rintro meaning after _ ⟨value, store, rfl, agree, mirrors⟩
    apply Follows.bind (ih (fun argument present =>
      follows argument (List.mem_cons_of_mem _ present)) codeRest
      (And.right ∘ named) mirrors)
    rintro meanings after _ ⟨lengthEq, values, store, rfl, agreeAll, mirrors⟩
    apply Follows.done
    refine ⟨by simp [lengthEq], value :: values, store, ?_, .cons agree agreeAll, mirrors⟩
    congr 1
    apply Array.toList_inj.mp
    simp

theorem call_simulated {callee : Expression} (invokes : Invokes history invoke)
    (calleeFollows : callee.Simulated history invoke)
    (follows : ∀ argument ∈ arguments, argument.Simulated history invoke) :
    (Expression.call callee arguments).Simulated history invoke := by
  intro call kind shape start stop temps store state code named mirrors
  rcases code with ⟨called, given, codeCallee, codeArguments, found, rfl⟩
  rw [Expression.eval]
  apply Follows.bind (calleeFollows codeCallee (And.left ∘ named) mirrors)
  rintro meaning after _ ⟨value, store, rfl, agree, mirrors⟩
  apply Follows.bind (all_simulated follows codeArguments (And.right ∘ named) mirrors)
  rintro meanings after _ ⟨lengthEq, values, store, rfl, agreeAll, mirrors⟩
  rw [← lengthEq] at found
  exact invokes found mirrors agree agreeAll

/-- The code of every expression follows its evaluation, if calls do. -/
theorem simulated (invokes : Invokes history invoke) (expression : Expression) :
    expression.Simulated history invoke := by
  induction expression with
  | and left right leftFollows rightFollows => exact and_simulated leftFollows rightFollows
  | or left right leftFollows rightFollows => exact or_simulated leftFollows rightFollows
  | call callee arguments calleeFollows follows =>
    exact call_simulated invokes calleeFollows follows
  | number given =>
    intro call kind shape start stop temps store state code named mirrors
    rcases code with ⟨place, found, held, rfl⟩
    rw [Expression.eval]
    apply follows_constant found held
    apply Follows.done
    exact ⟨_, store, rfl, .number given, mirrors⟩
  | string text =>
    intro call kind shape start stop temps store state code named mirrors
    rcases code with ⟨place, found, held, rfl⟩
    rw [Expression.eval]
    apply follows_constant found held
    apply Follows.done
    exact ⟨_, store, rfl, .string text, mirrors⟩
  | literal given =>
    intro call kind shape start stop temps store state code named mirrors
    rcases code with ⟨found, rfl⟩
    rw [Expression.eval]
    apply follows_literal found
    apply Follows.done
    refine ⟨_, store, rfl, ?_, mirrors⟩
    cases given <;> constructor
  | reference name =>
    intro call kind shape start stop temps store state code named mirrors
    rcases code with ⟨accesses, rfl⟩
    rw [Expression.eval]
    exact Activation.follows_find accesses named mirrors
  | assign name assigned follows =>
    intro call kind shape start stop temps store state code named mirrors
    rcases code with ⟨valued, codeValue, accesses, rfl⟩
    rw [Expression.eval]
    apply Follows.bind (follows codeValue (And.right ∘ named) mirrors)
    rintro meaning after _ ⟨value, store, rfl, agree, mirrors⟩
    apply Follows.bind (Activation.follows_assign accesses mirrors agree)
    intro _ after machine valued
    exact Follows.done valued
  | unary operator operand follows =>
    intro call kind shape start stop temps store state code named mirrors
    rcases code with ⟨operated, codeOperand, found, rfl⟩
    rw [Expression.eval]
    apply Follows.bind (follows codeOperand named mirrors)
    rintro meaning after _ ⟨value, store, rfl, agree, mirrors⟩
    exact Activation.follows_unary found mirrors agree
  | binary operator left right leftFollows rightFollows =>
    intro call kind shape start stop temps store state code named mirrors
    rcases code with ⟨first, second, codeLeft, codeRight, has⟩
    rw [Expression.eval]
    apply Follows.bind (leftFollows codeLeft (And.left ∘ named) mirrors)
    rintro meaning after _ ⟨value, store, rfl, agree, mirrors⟩
    apply Follows.bind (rightFollows codeRight (And.right ∘ named) mirrors)
    rintro another after _ ⟨other, store, rfl, agreeToo, mirrors⟩
    exact Activation.follows_operator has mirrors agree agreeToo

end Expression

end StackScript
