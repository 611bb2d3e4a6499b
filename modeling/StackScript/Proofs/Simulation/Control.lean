import StackScript.Proofs.Simulation.Statement

/-!
# The code of blocks, branches and loops

What a statement with statements in it does, from what those do. A loop is followed by induction
on the number of its rounds; where the machine stands in front of a test, a round and an advance
is what one round hands on to the next.
-/

namespace StackScript

open Activation
open Machine (Follows)
open Reference

variable {history : History} {call : Activation} {layout other : Layout}
  {statement inner first rest body : Statement} {shape : List (List String)}
  {start stop middle : Nat} {flow : Flow} {store : Store} {state : State} {machine : Machine}
  {invoke : Meaning → List Meaning → Eval Meaning} {rounds : Nat}

/-! ## Layouts -/

namespace Layout.Suits

theorem undeclared (suits : layout.Suits statement shape) (declares : inner.declared = []) :
    layout.Suits inner shape :=
  { suits with declares := fun some => absurd declares some }

theorem before (suits : layout.Suits (.sequence first rest) shape) : layout.Suits first shape := by
  refine { suits with declares := fun some => suits.declares ?_ }
  simp [Statement.declared, some]

theorem after (suits : layout.Suits (.sequence first rest) shape) :
    (layout.after first).Suits rest (deepen (layout.binds first) shape) := by
  refine ⟨?_, ?_, ?_, ?_⟩
  · rw [flatten_deepen _ suits.inside, suits.names_eq]
    rfl
  · intro isEmpty
    have lengthEq := congrArg List.length isEmpty
    rw [length_deepen] at lengthEq
    exact suits.inside (List.length_eq_zero_iff.mp lengthEq)
  · intro some
    rw [length_deepen]
    exact suits.declares (by simp [Statement.declared, some])
  · intro loop inLoop
    have inside := suits.loop_le loop inLoop
    simp only [Layout.after, List.length_append]
    omega

theorem enter (suits : layout.Suits statement shape) (inner : Statement) :
    layout.inScope.Suits inner ([] :: shape) := by
  refine ⟨suits.names_eq, by simp, fun _ => ?_, suits.loop_le⟩
  have positive := List.length_pos_iff.mpr suits.inside
  simp only [Layout.inScope, List.length_cons]
  constructor
  · intro impossible
    cases impossible
  · omega

theorem inLoop (suits : layout.Suits statement shape) (declares : body.declared = [])
    (start exit : Nat) : (layout.inLoop start exit).Suits body shape := by
  refine ⟨suits.names_eq, suits.inside, fun some => absurd declares some, ?_⟩
  rintro loop ⟨⟩
  exact Nat.le_refl _

end Layout.Suits

/-! ## Ways to end -/

namespace Activation

theorem Reached.jumped (reached : call.Reached history other inner shape middle flow state machine)
    (leaves : flow ≠ .normal) (kindEq : other.kind = layout.kind)
    (loopEq : other.loop = layout.loop)
    (declares : statement.declared = [] → inner.declared = []) :
    call.Reached history layout statement shape stop flow state machine := by
  cases flow with
  | normal => exact absurd rfl leaves
  | broke =>
    rcases reached with ⟨loop, inLoop, extra, store, standing, shows, shapeEq, empty⟩
    rw [kindEq] at shows
    exact ⟨loop, loopEq ▸ inLoop, extra, store, standing, shows, shapeEq,
      fun none => empty (declares none)⟩
  | continued =>
    rcases reached with ⟨loop, inLoop, extra, store, standing, shows, shapeEq, empty⟩
    rw [kindEq] at shows
    exact ⟨loop, loopEq ▸ inLoop, extra, store, standing, shows, shapeEq,
      fun none => empty (declares none)⟩
  | returned meaning =>
    rcases reached with ⟨isFunction, back⟩
    exact ⟨kindEq ▸ isFunction, back⟩

theorem Reached.cast (reached : call.Reached history other inner shape stop flow state machine)
    (kindEq : other.kind = layout.kind) (loopEq : other.loop = layout.loop)
    (declares : inner.declared = []) (undeclared : statement.declared = []) :
    call.Reached history layout statement shape stop flow state machine := by
  cases flow with
  | normal =>
    have standing : call.Stands history _ (deepen _ shape) stop state machine := reached
    rw [deepen_binds declares, kindEq] at standing
    change call.Stands history _ (deepen _ shape) stop state machine
    rwa [deepen_binds undeclared]
  | _ => exact reached.jumped (by simp) kindEq loopEq fun _ => declares

theorem Reached.ofRest
    (reached : call.Reached history (layout.after first) rest
      (deepen (layout.binds first) shape) stop flow state machine) :
    call.Reached history layout (.sequence first rest) shape stop flow state machine := by
  have bindsEq : (layout.after first).binds rest ++ layout.binds first =
      layout.binds (.sequence first rest) := by
    cases outermost : layout.isOutermost <;>
      simp [Layout.binds, Layout.after, Statement.declared, outermost]
  have none : (Statement.sequence first rest).declared = [] →
      rest.declared = [] ∧ layout.binds first = [] := by
    intro undeclared
    rcases List.append_eq_nil_iff.mp undeclared with ⟨inRest, inFirst⟩
    exact ⟨inRest, by simp [Layout.binds, inFirst]⟩
  cases flow with
  | normal =>
    rcases reached with ⟨store, standing, mirrors⟩
    rw [deepen_deepen, bindsEq] at mirrors
    exact ⟨store, standing, mirrors⟩
  | broke | continued =>
    rcases reached with ⟨loop, inLoop, extra, store, standing, shows, shapeEq, empty⟩
    rw [deepen_deepen] at shapeEq
    refine ⟨loop, inLoop, extra ++ layout.binds first, store, standing, shows, shapeEq, ?_⟩
    intro undeclared
    rw [empty (none undeclared).1, (none undeclared).2, List.append_nil]
  | returned meaning => exact reached

theorem Reached.left
    (reached : call.Reached history other inner ([] :: shape) middle flow state machine)
    (leaves : flow ≠ .normal) (kindEq : other.kind = layout.kind)
    (loopEq : other.loop = layout.loop)
    (inside : ∀ loop, layout.loop = some loop → loop.height ≤ shape.flatten.length) :
    call.Reached history layout statement shape stop flow state.leave machine := by
  have outside : ∀ {height target : Nat}, height ≤ shape.flatten.length →
      call.Left history other.kind ([] :: shape) inner.declared height target state machine →
      call.Left history layout.kind shape statement.declared height target state.leave machine := by
    intro height target below left
    rcases left with ⟨extra, store, standing, shows, shapeEq, _⟩
    rw [kindEq] at shows
    refine ⟨[], store, standing, shows.leave shapeEq below, ?_, fun _ => rfl⟩
    rw [State.shape_leave, shapeEq, deepen_nil]
    rfl
  cases flow with
  | normal => exact absurd rfl leaves
  | broke | continued =>
    rcases reached with ⟨loop, inLoop, left⟩
    rw [loopEq] at inLoop
    exact ⟨loop, inLoop, outside (inside loop inLoop) left⟩
  | returned meaning =>
    rcases reached with ⟨isFunction, value, globals, sink, standing, agree, reports⟩
    exact ⟨kindEq ▸ isFunction, value, globals, sink, standing, agree, { reports with }⟩

theorem follows_inScope {action : Eval Flow} {between post : Flow → State → Machine → Prop}
    (inside : machine.Follows history between (action state.enter))
    (outside : ∀ flow after next, between flow after next →
      next.Follows history post (.ok flow after.leave)) :
    machine.Follows history post (inScope action state) := by
  change machine.Follows history post ((action >>= fun flow => do
    modify State.leave
    return flow) state.enter)
  exact Follows.bind inside outside

theorem follows_leave {α : Type} {post : α → State → Machine → Prop}
    {result : EStateM.Result Stop State α} {kind : DraftKind} {names : List String}
    (pops : Statement.PopsAt call.chunk names.length start stop)
    (mirrors : store.Mirrors history kind (names :: shape) state)
    (onward : (call.machine stop #[] (store.cut shape.flatten.length)).Follows history
      post result) :
    (call.machine start #[] store).Follows history post result := by
  have sizeEq := mirrors.size_slots
  rw [List.flatten_cons, List.length_append] at sizeEq
  apply follows_pops pops
  · omega
  · rw [sizeEq, Nat.add_sub_cancel_left]
    exact onward

end Activation

/-! ## Statements in statements -/

namespace Statement

theorem sequence_simulated (firstFollows : first.Simulated history invoke rounds)
    (restFollows : rest.Simulated history invoke rounds) :
    (Statement.sequence first rest).Simulated history invoke rounds := by
  intro call layout shape start stop marks home store state code named suits runs mirrors
  rcases code with ⟨middle, marksFirst, marksRest, codeFirst, codeRest, _⟩
  rw [Statement.exec]
  apply Follows.bind (firstFollows codeFirst (And.left ∘ named) suits.before runs mirrors)
  intro flow after machine reached
  have declares : (Statement.sequence first rest).declared = [] → first.declared = [] := by
    intro undeclared
    exact (List.append_eq_nil_iff.mp undeclared).2
  cases flow with
  | normal =>
    rcases reached with ⟨store, rfl, mirrors⟩
    apply Follows.imp (restFollows codeRest (And.right ∘ named) suits.after runs mirrors)
    intro flow after machine reached
    exact reached.ofRest
  | _ => exact Follows.done (reached.jumped (by simp) rfl rfl declares)

theorem block_simulated (follows : body.Simulated history invoke rounds) :
    (Statement.block body).Simulated history invoke rounds := by
  intro call layout shape start stop marks home store state code named suits runs mirrors
  rcases code with ⟨done, marksInside, codeBody, pops, _⟩
  rw [Statement.exec]
  apply Activation.follows_inScope (follows codeBody named (suits.enter body) runs mirrors.enter)
  intro flow after machine reached
  cases flow with
  | normal =>
    rcases reached with ⟨store, rfl, mirrors⟩
    have inside : store.Mirrors history layout.kind (body.declared :: shape) after := by
      simpa [deepen, Layout.binds, Layout.inScope] using mirrors
    apply Activation.follows_leave pops inside
    apply Follows.done
    refine ⟨_, rfl, ?_⟩
    rw [deepen_binds rfl]
    exact inside.leave
  | _ =>
    apply Follows.done
    exact reached.left (by simp) rfl rfl (suits.names_eq ▸ suits.loop_le)

theorem conditional_simulated {condition : Expression} {met unmet : Statement}
    (invokes : Invokes history invoke) (metFollows : met.Simulated history invoke rounds)
    (unmetFollows : unmet.Simulated history invoke rounds) (metDeclares : met.declared = [])
    (unmetDeclares : unmet.declared = []) :
    (Statement.conditional condition met unmet).Simulated history invoke rounds := by
  intro call layout shape start stop marks home store state code named suits runs mirrors
  rcases code with ⟨tested, chosen, marksMet, marksUnmet, codeTest, jumps, popsMet, codeMet, skips,
    popsUnmet, codeUnmet, _⟩
  rw [← suits.names_eq] at codeTest
  rw [Statement.exec]
  apply Follows.bind (condition.simulated invokes codeTest (And.left ∘ named) mirrors)
  rintro meaning after _ ⟨value, store, rfl, agree, mirrors⟩
  apply Activation.follows_jumpIfFalse jumps
  · intro falsey
    rw [if_pos (agree.isFalsey_eq ▸ falsey)]
    apply Activation.follows_pop popsUnmet
    have suitsBoth : layout.Suits (.sequence met unmet) shape :=
      suits.undeclared (by simp [declared, metDeclares, unmetDeclares])
    have suitsUnmet := suitsBoth.after
    rw [deepen_binds metDeclares] at suitsUnmet
    apply Follows.imp
      (unmetFollows codeUnmet (fun isScript => (named isScript).2.2) suitsUnmet runs mirrors)
    intro flow after machine reached
    exact reached.cast rfl rfl unmetDeclares rfl
  · intro truthy
    rw [if_neg (by simp [← agree.isFalsey_eq, truthy])]
    apply Activation.follows_pop popsMet
    apply Follows.andThen
      (metFollows codeMet (fun isScript => (named isScript).2.1)
        (suits.undeclared metDeclares) runs mirrors)
    intro flow after machine reached
    cases flow with
    | normal =>
      rcases reached with ⟨store, rfl, mirrors⟩
      rw [deepen_binds metDeclares] at mirrors
      apply Activation.follows_jump skips
      apply Follows.done
      refine ⟨store, rfl, ?_⟩
      rwa [deepen_binds rfl]
    | _ => exact Follows.done (reached.jumped (by simp) rfl rfl fun _ => metDeclares)

theorem breakLoop_simulated : Statement.breakLoop.Simulated history invoke rounds := by
  intro call layout shape start stop marks home store state code named suits runs mirrors
  rcases code with ⟨loop, popped, inLoop, below, pops, jumps, _⟩
  rw [← suits.names_eq] at below pops
  have sizeEq := mirrors.size_slots
  apply Activation.follows_pops pops (by omega)
  rw [sizeEq, Nat.sub_sub_self below]
  apply Activation.follows_jump jumps
  apply Follows.done
  refine ⟨loop, inLoop, [], _, rfl, mirrors.shows.cut below, ?_, fun _ => rfl⟩
  rw [deepen_nil]
  exact mirrors.shape_eq

theorem continueLoop_simulated : Statement.continueLoop.Simulated history invoke rounds := by
  intro call layout shape start stop marks home store state code named suits runs mirrors
  rcases code with ⟨loop, popped, inLoop, below, pops, loops, _⟩
  rw [← suits.names_eq] at below pops
  have sizeEq := mirrors.size_slots
  apply Activation.follows_pops pops (by omega)
  rw [sizeEq, Nat.sub_sub_self below]
  apply Activation.follows_loop loops
  apply Follows.done
  refine ⟨loop, inLoop, [], _, rfl, mirrors.shows.cut below, ?_, fun _ => rfl⟩
  rw [deepen_nil]
  exact mirrors.shape_eq

theorem returnValue_simulated (invokes : Invokes history invoke) (given : Option Expression) :
    (Statement.returnValue given).Simulated history invoke rounds := by
  intro call layout shape start stop marks home store state code named suits runs mirrors
  have computes : layout.kind = .function ∧ ∃ valued,
      InitialAt call.chunk shape.flatten given start valued ∧ call.chunk.Has valued .ret := by
    rw [suits.names_eq]
    cases given with
    | none => exact ⟨code.1, start + 1, ⟨code.2.1.1, rfl⟩, code.2.1.2.1⟩
    | some expression =>
      rcases code with ⟨isFunction, valued, codeValue, found, _⟩
      exact ⟨isFunction, valued, codeValue, found⟩
  rcases computes with ⟨isFunction, valued, codeValue, found⟩
  rw [Statement.exec]
  apply Follows.bind (follows_initial invokes codeValue named mirrors)
  rintro meaning after _ ⟨value, store, rfl, agree, mirrors⟩
  apply follows_ret found (runs.called isFunction)
  apply Follows.done
  exact ⟨isFunction, value, _, _, rfl, agree, mirrors.shows.reports⟩

end Statement

/-! ## Loops -/

/-- Rounds of a loop, from what the machine does with a test, with a round and with an advance. -/
theorem Machine.Follows.iterate {test : Eval Bool} {round : Eval Flow} {advance : Eval Unit}
    {post : Flow → State → Machine → Prop} (atTest atRound atAdvance : State → Machine → Prop)
    (tests : ∀ state machine, atTest state machine → machine.Follows history
      (fun met after next => if met then atRound after next else post .normal after next)
      (test state))
    (does : ∀ state machine, atRound state machine → machine.Follows history
      (fun flow after next =>
        match flow with
        | .broke => post .normal after next
        | .returned value => post (.returned value) after next
        | .normal | .continued => atAdvance after next)
      (round state))
    (advances : ∀ state machine, atAdvance state machine → machine.Follows history
      (fun _ after next => atTest after next) (advance state))
    (rounds : Nat) (starts : atTest state machine) :
    machine.Follows history post (iterate test round advance rounds state) := by
  induction rounds generalizing state machine with
  | zero => trivial
  | succ rounds ih =>
    rw [Reference.iterate]
    apply Follows.bind (tests state machine starts)
    intro met after next goesOn
    cases met with
    | false => exact Follows.done goesOn
    | true =>
      apply Follows.bind (does after next goesOn)
      intro flow after next ended
      cases flow with
      | broke => exact Follows.done ended
      | returned value => exact Follows.done ended
      | normal | continued =>
        apply Follows.bind (advances after next ended)
        intro _ after next starts
        exact ih starts

namespace Activation

variable {kind : DraftKind} {condition increment : Option Expression} {test leave exit again : Nat}

theorem follows_test (invokes : Invokes history invoke)
    (code : Statement.ConditionAt call.chunk shape.flatten condition start stop leave)
    (exits : Statement.ExitAt call.chunk condition leave exit)
    (named : kind = .script → ∀ value ∈ condition, value.Named)
    (mirrors : store.Mirrors history kind shape state) :
    (call.machine start #[] store).Follows history
      (fun met => call.Stands history kind shape (if met then stop else exit))
      ((do return !(← Statement.evalOr invoke (.bool true) condition).isFalsey : Eval Bool)
        state) := by
  cases condition with
  | none =>
    cases (code : stop = start)
    apply Follows.done
    exact ⟨store, rfl, mirrors⟩
  | some expression =>
    rcases code with ⟨tested, codeTest, jumps, pops, rfl⟩
    rcases exits with ⟨popsToo, rfl⟩
    apply Follows.bind
      (expression.simulated invokes codeTest (fun isScript => named isScript _ rfl) mirrors)
    rintro meaning after _ ⟨value, store, rfl, agree, mirrors⟩
    apply follows_jumpIfFalse jumps
    · intro falsey
      apply follows_pop popsToo
      apply Follows.done
      rw [← agree.isFalsey_eq, falsey]
      exact ⟨store, rfl, mirrors⟩
    · intro truthy
      apply follows_pop pops
      apply Follows.done
      rw [← agree.isFalsey_eq, truthy]
      exact ⟨store, rfl, mirrors⟩

theorem follows_increment (invokes : Invokes history invoke)
    (code : Statement.IncrementAt call.chunk shape.flatten test increment start stop again)
    (named : kind = .script → ∀ value ∈ increment, value.Named)
    (mirrors : store.Mirrors history kind shape state) :
    (call.machine again #[] store).Follows history
      (fun _ => call.Stands history kind shape test)
      ((do let _ ← Statement.evalOr invoke .nil increment : Eval Unit) state) := by
  cases increment with
  | none =>
    rcases code with ⟨_, rfl⟩
    apply Follows.done
    exact ⟨store, rfl, mirrors⟩
  | some expression =>
    rcases code with ⟨advanced, _, codeIncrement, pops, loops, _, rfl⟩
    apply Follows.bind
      (expression.simulated invokes codeIncrement (fun isScript => named isScript _ rfl) mirrors)
    rintro meaning after _ ⟨value, store, rfl, _, mirrors⟩
    apply follows_pop pops
    apply follows_loop loops
    apply Follows.done
    exact ⟨store, rfl, mirrors⟩

theorem follows_entry {α : Type} {post : α → State → Machine → Prop}
    {result : EStateM.Result Stop State α} {temps : Array Value}
    (code : Statement.IncrementAt call.chunk shape.flatten test increment start stop again)
    (onward : (call.machine stop temps store).Follows history post result) :
    (call.machine start temps store).Follows history post result := by
  cases increment with
  | none =>
    rcases code with ⟨rfl, _⟩
    exact onward
  | some expression =>
    rcases code with ⟨advanced, jumps, _⟩
    exact follows_jump jumps onward

end Activation

namespace Statement

variable {home : Origin} {condition increment : Option Expression} {marks : List (Nat × Nat)}

theorem round_follows {again exit done : Nat} (follows : body.Simulated history invoke rounds)
    (declares : body.declared = [])
    (code : body.CodeAt call.chunk (layout.inLoop again exit) start done marks)
    (loops : call.chunk.LoopsTo done again) (named : layout.kind = .script → body.Named)
    (suits : layout.Suits statement shape) (runs : call.Runs history layout.kind home)
    (mirrors : store.Mirrors history layout.kind shape state) :
    (call.machine start #[] store).Follows history
      (fun flow after next =>
        match flow with
        | .broke => call.Stands history layout.kind shape exit after next
        | .returned value => call.Back history layout.kind value after next
        | .normal | .continued => call.Stands history layout.kind shape again after next)
      (body.exec invoke rounds home layout.functions state) := by
  have bounds : ∀ {target : Nat} {after : State} {next : Machine},
      call.Left history layout.kind shape body.declared layout.names.length target after next →
      call.Stands history layout.kind shape target after next := by
    rintro target after _ ⟨extra, store, rfl, shows, shapeEq, empty⟩
    rw [empty declares, deepen_nil] at shapeEq
    rw [← suits.names_eq] at shows
    exact ⟨store, rfl, shapeEq, shows⟩
  apply Follows.andThen (follows code named (suits.inLoop declares again exit) runs mirrors)
  intro flow after machine reached
  cases flow with
  | normal =>
    rcases reached with ⟨store, rfl, mirrors⟩
    rw [deepen_binds declares] at mirrors
    apply Activation.follows_loop loops
    apply Follows.done
    exact ⟨store, rfl, mirrors⟩
  | broke =>
    rcases reached with ⟨loop, ⟨⟩, left⟩
    exact Follows.done (bounds left)
  | continued =>
    rcases reached with ⟨loop, ⟨⟩, left⟩
    exact Follows.done (bounds left)
  | returned meaning => exact Follows.done reached

def LoopEnded (history : History) (call : Activation) (kind : DraftKind)
    (shape : List (List String)) (exit : Nat) : Flow → State → Machine → Prop
  | .normal => call.Stands history kind shape exit
  | .returned value => call.Back history kind value
  | _ => fun _ _ => False

theorem loop_follows {test advance entry done exit again : Nat} (invokes : Invokes history invoke)
    (follows : body.Simulated history invoke rounds) (declares : body.declared = [])
    (codeTest : ConditionAt call.chunk shape.flatten condition test advance (done + 3))
    (codeIncrement : IncrementAt call.chunk shape.flatten test increment advance entry again)
    (codeBody : body.CodeAt call.chunk (layout.inLoop again exit) entry done marks)
    (loops : call.chunk.LoopsTo done again) (exits : ExitAt call.chunk condition (done + 3) exit)
    (namedTest : layout.kind = .script → ∀ value ∈ condition, value.Named)
    (namedIncrement : layout.kind = .script → ∀ value ∈ increment, value.Named)
    (namedBody : layout.kind = .script → body.Named) (suits : layout.Suits statement shape)
    (runs : call.Runs history layout.kind home)
    (mirrors : store.Mirrors history layout.kind shape state) (limit : Nat) :
    (call.machine test #[] store).Follows history
      (LoopEnded history call layout.kind shape exit)
      (iterate (return !(← evalOr invoke (.bool true) condition).isFalsey)
        (body.exec invoke rounds home layout.functions)
        (do let _ ← evalOr invoke .nil increment) limit state) := by
  refine Follows.iterate (call.Stands history layout.kind shape test)
    (call.Stands history layout.kind shape entry) (call.Stands history layout.kind shape again)
    ?_ ?_ ?_ limit ⟨store, rfl, mirrors⟩
  · rintro state _ ⟨store, rfl, mirrors⟩
    apply Follows.andThen (Activation.follows_test invokes codeTest exits namedTest mirrors)
    intro met after machine standing
    cases met with
    | false => exact Follows.done standing
    | true =>
      rcases standing with ⟨store, rfl, mirrors⟩
      apply Activation.follows_entry codeIncrement
      apply Follows.done
      exact ⟨store, rfl, mirrors⟩
  · rintro state _ ⟨store, rfl, mirrors⟩
    exact round_follows follows declares codeBody loops namedBody suits runs mirrors
  · rintro state _ ⟨store, rfl, mirrors⟩
    exact Activation.follows_increment invokes codeIncrement namedIncrement mirrors

theorem whileLoop_simulated {condition : Expression} (invokes : Invokes history invoke)
    (follows : body.Simulated history invoke rounds) (declares : body.declared = []) :
    (Statement.whileLoop condition body).Simulated history invoke rounds := by
  intro call layout shape start stop marks home store state code named suits runs mirrors
  rcases code with ⟨tested, done, marksInside, codeTest, jumps, pops, codeBody, loops, popsToo,
    rfl, _⟩
  rw [← suits.names_eq] at codeTest
  have tests : ConditionAt call.chunk shape.flatten (some condition) start (tested + 4)
      (done + 3) := ⟨tested, codeTest, jumps, pops, rfl⟩
  have noIncrement : IncrementAt call.chunk shape.flatten start none (tested + 4) (tested + 4)
      start := ⟨rfl, rfl⟩
  rw [Statement.exec]
  apply Follows.imp (loop_follows invokes follows declares tests noIncrement codeBody loops
    ⟨popsToo, rfl⟩ (by simpa using fun isScript => (named isScript).1) (by simp)
    (And.right ∘ named) suits runs mirrors rounds)
  intro flow after machine ended
  cases flow with
  | normal =>
    rcases ended with ⟨store, rfl, mirrors⟩
    exact ⟨store, rfl, by rwa [deepen_binds rfl]⟩
  | returned value => exact ended
  | broke | continued => exact False.elim ended

theorem bind_eq_ok {α β : Type} {action : Eval α} {onward : α → Eval β} {after : State} {value : β}
    (ended : (action >>= onward) state = .ok value after) :
    ∃ between middle, onward between middle = .ok value after := by
  change EStateM.bind action onward state = _ at ended
  rw [EStateM.bind] at ended
  generalize action state = result at ended
  cases result with
  | ok between middle => exact ⟨between, middle, ended⟩
  | error stop middle => cases ended

theorem flow_of_clause {place : Nat} {after : State} (clause : inner.isClause = true)
    (ended : inner.exec invoke rounds home place state = .ok flow after) : flow = .normal := by
  cases inner with
  | empty =>
    rw [exec] at ended
    cases ended
    rfl
  | expression value =>
    rw [exec] at ended
    rcases bind_eq_ok ended with ⟨_, _, ⟨⟩⟩
    rfl
  | varDeclaration name initial =>
    rw [exec] at ended
    rcases bind_eq_ok ended with ⟨_, _, declared⟩
    rcases bind_eq_ok declared with ⟨_, _, ⟨⟩⟩
    rfl
  | _ => cases clause

theorem forLoop_simulated {initial : Statement} (invokes : Invokes history invoke)
    (clause : initial.isClause = true) (initialFollows : initial.Simulated history invoke rounds)
    (follows : body.Simulated history invoke rounds) (declares : body.declared = []) :
    (Statement.forLoop initial condition increment body).Simulated history invoke rounds := by
  intro call layout shape start stop marks home store state code named suits runs mirrors
  rcases code with ⟨test, advance, entry, done, exit, again, marksInitial, marksInside, codeInitial,
    codeTest, codeIncrement, codeBody, loops, exits, pops, _⟩
  have suitsInitial := suits.enter (.sequence initial body)
  have shapeEq : deepen (layout.inScope.binds initial) ([] :: shape) =
      initial.declared :: shape := by
    simp [deepen, Layout.binds, Layout.inScope]
  have suitsLoop := suitsInitial.after
  rw [shapeEq] at suitsLoop
  rw [← suitsLoop.names_eq] at codeTest codeIncrement
  rw [Statement.exec]
  apply Activation.follows_inScope
  · apply Follows.bind (initialFollows codeInitial (And.left ∘ named)
      suitsInitial.before runs mirrors.enter).withResult
    rintro flow after machine ⟨ended, reached⟩
    rw [flow_of_clause clause ended] at reached
    rcases reached with ⟨store, rfl, mirrors⟩
    rw [shapeEq] at mirrors
    exact loop_follows invokes follows declares codeTest codeIncrement codeBody loops exits
      (fun isScript => (named isScript).2.1) (fun isScript => (named isScript).2.2.1)
      (fun isScript => (named isScript).2.2.2) suitsLoop runs mirrors rounds
  · intro flow after machine ended
    cases flow with
    | normal =>
      rcases ended with ⟨store, rfl, mirrors⟩
      apply Activation.follows_leave pops mirrors
      apply Follows.done
      exact ⟨_, rfl, by rw [deepen_binds rfl]; exact mirrors.leave⟩
    | returned value =>
      rcases ended with ⟨isFunction, value, globals, sink, standing, agree, reports⟩
      apply Follows.done
      exact ⟨isFunction, value, globals, sink, standing, agree, { reports with }⟩
    | broke | continued => exact False.elim ended

/-- The code of every statement follows what the statement does, if calls do. -/
theorem simulated (invokes : Invokes history invoke) (rounds : Nat) (statement : Statement)
    (placed : statement.Placed) : statement.Simulated history invoke rounds := by
  induction statement with
  | empty =>
    intro call layout shape start stop marks home store state code named suits runs mirrors
    cases code.1
    rw [Statement.exec]
    apply Follows.done
    exact ⟨store, rfl, by rwa [deepen_binds rfl]⟩
  | sequence first rest firstFollows restFollows =>
    exact sequence_simulated (firstFollows placed.1) (restFollows placed.2)
  | expression value => exact expression_simulated invokes value
  | print value => exact print_simulated invokes value
  | varDeclaration name initial => exact varDeclaration_simulated invokes name initial
  | funDeclaration name parameters body =>
    apply funDeclaration_simulated
    exact placed
  | block body follows => exact block_simulated (follows placed)
  | conditional condition met unmet metFollows unmetFollows =>
    rcases placed with ⟨metPlaced, metDeclares, unmetPlaced, unmetDeclares⟩
    exact conditional_simulated invokes (metFollows metPlaced) (unmetFollows unmetPlaced)
      metDeclares unmetDeclares
  | whileLoop condition body follows =>
    exact whileLoop_simulated invokes (follows placed.1) placed.2
  | forLoop initial condition increment body initialFollows follows =>
    rcases placed with ⟨clause, bodyPlaced, declares⟩
    exact forLoop_simulated invokes clause
      (initialFollows (placed_of_isClause clause)) (follows bodyPlaced) declares
  | breakLoop => exact breakLoop_simulated
  | continueLoop => exact continueLoop_simulated
  | returnValue value => exact returnValue_simulated invokes value

end Statement

end StackScript
