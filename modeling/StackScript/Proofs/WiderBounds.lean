import StackScript.Proofs.Inward

/-!
# Wider bounds

A machine with wider bounds does the same steps up to the point where the narrower one overflows. If
that point never comes, both end in the same way; if it comes, what was written until then stays
written. Nothing is assumed about the code.
-/

namespace StackScript

/-- One machine has bounds at least as wide as another one. -/
instance : LE Config :=
  ⟨fun narrow wide => narrow.stackSize ≤ wide.stackSize ∧ narrow.maxFrames ≤ wide.maxFrames⟩

/-- Whether a sink is an earlier one that was given more since. -/
def Sink.Extends (sink earlier : Sink) : Prop :=
  ∃ newer more, sink = ⟨earlier.policy, newer ++ earlier.given, earlier.written ++ more⟩

namespace Sink.Extends

variable {sink middle earlier : Sink}

theorem refl (sink : Sink) : sink.Extends sink :=
  ⟨[], .empty, by rw [ByteArray.append_empty]; rfl⟩

theorem trans (later : sink.Extends middle) (sooner : middle.Extends earlier) :
    sink.Extends earlier := by
  rcases later with ⟨newer, more, rfl⟩
  rcases sooner with ⟨given, first, rfl⟩
  exact ⟨newer ++ given, first ++ more, by rw [List.append_assoc, ByteArray.append_assoc]⟩

theorem of_write {text : String} {answer : Option String}
    (writes : earlier.write text = (sink, answer)) : sink.Extends earlier :=
  ⟨[text], _, (Prod.mk.inj writes).1.symm⟩

end Sink.Extends

namespace Machine

/-- Other bounds and another sink. -/
def recast (machine : Machine) (config : Config) (sink : Sink) : Machine :=
  { machine with config, sink }

def under (machine : Machine) (config : Config) : Machine :=
  { machine with config }

theorem Quiet.recast_eq {machine after : Machine} (quiet : machine.Quiet after) (config : Config) :
    after.recast config machine.sink = after.under config :=
  quiet.sink_eq ▸ rfl

end Machine

namespace Exec

variable {α β : Type} {machine middle : Machine} {config : Config} {sink : Sink}

/-- The machine that an action leaves behind, whether or not the action failed. -/
def left : EStateM.Result Fault Machine α → Machine
  | .ok _ machine => machine
  | .error _ machine => machine

theorem Leads.grows {instruction : Instruction}
    {result : EStateM.Result Fault Machine (Option Value)}
    (leads : Leads machine instruction result) : (left result).sink.Extends machine.sink := by
  cases leads with
  | goesOn stays _ | fails stays _ _ =>
    rw [left, stays.sink_eq]
    exact .refl machine.sink
  | prints _ writes | spills _ writes => exact .of_write writes
  | calls | returns | ends | overflows => exact .refl machine.sink

/--
How an action that writes nothing ends under wider bounds and with another output: in the same way,
unless it overflows under the narrower ones.
-/
inductive Recasts (machine : Machine) (config : Config) (sink : Sink) :
    EStateM.Result Fault Machine α → EStateM.Result Fault Machine α → Prop where
  | ok {value : α} {after : Machine} (quiet : machine.Quiet after) :
      Recasts machine config sink (.ok value after) (.ok value (after.recast config sink))
  | error {fault : Fault} {after : Machine} (quiet : machine.Quiet after) :
      Recasts machine config sink (.error fault after) (.error fault (after.recast config sink))
  | overflow {after : Machine} {other : EStateM.Result Fault Machine α}
      (quiet : machine.Quiet after) (differs : machine.config ≠ config)
      (silent : (left other).sink = sink) :
      Recasts machine config sink (.error .stackOverflow after) other

namespace Recasts

theorem of_quiet {result other : EStateM.Result Fault Machine α}
    (recasts : Recasts middle config sink result other) (quiet : machine.Quiet middle) :
    Recasts machine config sink result other := by
  cases recasts with
  | ok quietToo => exact .ok (quiet.trans quietToo)
  | error quietToo => exact .error (quiet.trans quietToo)
  | overflow quietToo differs silent =>
    exact .overflow (quiet.trans quietToo) (quiet.config_eq ▸ differs) silent

theorem bind {action : Exec α} {next : α → Exec β} (bounds : machine.config ≤ config)
    (first : Recasts machine config sink (action machine) (action (machine.recast config sink)))
    (rest : ∀ value after, after.config ≤ config →
      Recasts after config sink (next value after) (next value (after.recast config sink)))
    (silent : ∀ value after, (left (next value after)).sink = after.sink) :
    Recasts machine config sink ((action >>= next) machine)
      ((action >>= next) (machine.recast config sink)) := by
  rw [bind_apply, bind_apply]
  generalize action machine = result at first
  generalize action (machine.recast config sink) = other at first
  cases first with
  | @ok value after quiet => exact (rest value after (quiet.config_eq ▸ bounds)).of_quiet quiet
  | error quiet => exact .error quiet
  | overflow quiet differs unwritten =>
    refine .overflow quiet differs ?_
    cases other with
    | ok value after => exact (silent value after).trans unwritten
    | error fault after => exact unwritten

end Recasts

theorem Ends.silent {assigns moves : Bool} {result : EStateM.Result Fault Machine α}
    (ends : Ends assigns moves machine result) : (left result).sink = machine.sink := by
  cases ends with
  | ok stays _ | error stays _ _ => exact stays.sink_eq

theorem Inward.recasts {assigns moves : Bool} {action : Exec α}
    (inward : Inward assigns moves action) (bounds : machine.config ≤ config) (sink : Sink) :
    Recasts machine config sink (action machine) (action (machine.recast config sink)) := by
  induction inward generalizing machine with
  | pure | onStack | assign => exact .ok ⟨rfl, rfl⟩
  | throw => exact .error ⟨rfl, rfl⟩
  | bind _ rest ihFirst ihRest =>
    exact .bind bounds (ihFirst bounds) (fun value _ within => ihRest value within)
      fun value after => ((rest value).ends after).silent
  | inspect next _ ih => exact ih _ _ bounds
  | push value =>
    rw [Exec.push, Exec.push]
    split
    · next room =>
      have more : (machine.recast config sink).stack.size <
          (machine.recast config sink).config.stackSize := Nat.lt_of_lt_of_le room bounds.1
      rw [if_pos more]
      exact .ok ⟨rfl, rfl⟩
    · next full =>
      split
      · next room => exact .overflow ⟨rfl, rfl⟩ (fun same => full (same ▸ room)) rfl
      · exact .error ⟨rfl, rfl⟩
  | pop =>
    cases held : machine.stack.back? <;> simp only [Exec.pop, Machine.recast, held]
    · exact .error ⟨rfl, rfl⟩
    · exact .ok ⟨rfl, rfl⟩
  | peek =>
    cases held : machine.stack.back? <;> simp only [Exec.peek, Machine.recast, held]
    · exact .error ⟨rfl, rfl⟩
    · exact .ok ⟨rfl, rfl⟩
  | frame =>
    cases innermost : machine.frames.back? <;> simp only [Exec.frame, Machine.recast, innermost]
    · exact .error ⟨rfl, rfl⟩
    · exact .ok ⟨rfl, rfl⟩
  | goTo ip =>
    cases innermost : machine.frames.back? <;> simp only [Exec.goTo, Machine.recast, innermost]
    · exact .error ⟨rfl, rfl⟩
    · exact .ok ⟨rfl, rfl⟩

theorem enter_recasts (callee : Callable) (base : Nat) (bounds : machine.config ≤ config)
    (sink : Sink) : Recasts machine config sink (enter callee base machine)
      (enter callee base (machine.recast config sink)) := by
  rw [enter, enter]
  split
  · next full =>
    split
    · exact .error ⟨rfl, rfl⟩
    · next room => exact .overflow ⟨rfl, rfl⟩ (fun same => room (same ▸ full)) rfl
  · next room =>
    have more : ¬(machine.recast config sink).config.maxFrames ≤
        (machine.recast config sink).frames.size := fun full => room (Nat.le_trans bounds.2 full)
    rw [if_neg more]
    exact .ok ⟨rfl, rfl⟩

theorem execute_recasts {instruction : Instruction} {frame : Frame}
    (quiet : instruction ≠ .print) (innermost : machine.frames.back? = some frame)
    (bounds : machine.config ≤ config) (sink : Sink) :
    Recasts machine config sink (execute instruction machine)
      (execute instruction (machine.recast config sink)) := by
  rcases execute_cases instruction with ⟨_, action, inward, executeEq⟩ | rfl | ⟨count, rfl⟩ | rfl
  · rw [executeEq]
    exact .bind bounds (inward.recasts bounds sink) (fun _ _ _ => .ok ⟨rfl, rfl⟩) fun _ _ => rfl
  · exact absurd rfl quiet
  · rcases executeCall_cases count machine.stack with ⟨fault, _, fails⟩ | ⟨callee, base, enters⟩
    · rw [fails machine rfl, fails (machine.recast config sink) rfl]
      exact .error ⟨rfl, rfl⟩
    · rw [enters machine rfl, enters (machine.recast config sink) rfl]
      exact enter_recasts callee base bounds sink
  · have same : (machine.recast config sink).frames.back? = some frame := innermost
    cases held : machine.stack.back? with
    | none =>
      have heldToo : (machine.recast config sink).stack.back? = none := held
      rw [execute_ret_empty held, execute_ret_empty heldToo]
      exact .error ⟨rfl, rfl⟩
    | some value =>
      rcases Array.back?_eq_some_iff.mp held with ⟨rest, top⟩
      have topToo : (machine.recast config sink).stack = rest.push value := top
      have puts : Inward false false (put value) := .bind (.push value) fun _ => .pure none
      have framesEq : (machine.recast config sink).frames = machine.frames := rfl
      rw [execute_ret innermost top, execute_ret same topToo, framesEq]
      split
      · exact .ok ⟨rfl, rfl⟩
      · have within : ({ machine with
            frames := machine.frames.pop, stack := rest.shrink frame.base } : Machine).config ≤
              config := bounds
        exact (puts.recasts within sink).of_quiet ⟨rfl, rfl⟩

/-- A step writes nothing, and depends on the bounds alone, unless it prints a value. -/
theorem step_recasts (bounds : machine.config ≤ config) (sink : Sink) :
    Recasts machine config sink (step machine) (step (machine.recast config sink)) ∨
    ∃ (frame : Frame) (rest : Array Value) (value : Value),
      machine.frames.back? = some frame ∧ frame.chunk.Has frame.ip .print ∧
      machine.stack = rest.push value := by
  rcases step_cases machine.frames with
    ⟨fault, _, _, _, fails⟩ | ⟨frame, instruction, innermost, found⟩
  · rw [fails machine rfl, fails (machine.recast config sink) rfl]
    exact .inl (.error ⟨rfl, rfl⟩)
  · have same : (machine.recast config sink).frames.back? = some frame := innermost
    rw [step_eq innermost found, step_eq same found]
    by_cases prints : instruction = .print
    · subst prints
      cases held : machine.stack.back? with
      | none =>
        left
        rw [execute_print_empty (by exact held), execute_print_empty (by exact held)]
        exact .error ⟨rfl, rfl⟩
      | some value =>
        rcases Array.back?_eq_some_iff.mp held with ⟨rest, top⟩
        exact .inr ⟨frame, rest, value, innermost, found, top⟩
    · left
      have within : (machine.resume frame (frame.ip + instruction.size)).config ≤ config := bounds
      exact (execute_recasts prints Array.back?_push within sink).of_quiet ⟨rfl, rfl⟩

end Exec

/-! ## Runs -/

/-- How far a run has come under wider bounds: just as far, or somewhere behind an overflow. -/
inductive Progress.Widens (wide : Config) : Progress → Progress → Prop where
  | running {machine : Machine} (bounds : machine.config ≤ wide) :
      Widens wide (.running machine) (.running (machine.under wide))
  | finished {outcome : Except Failure Value} {last : Machine} :
      Widens wide (.finished outcome last) (.finished outcome (last.under wide))
  | overflow {line : Nat} {last : Machine} {other : Progress}
      (grown : other.machine.sink.Extends last.sink) :
      Widens wide (.finished (.error ⟨.stackOverflow, line⟩) last) other

namespace Machine

variable {machine last : Machine} {frame : Frame} {wide : Config}
  {outcome : Except Failure Value} {steps : Nat}

theorem sink_settle (before : Option Frame) (result : EStateM.Result Fault Machine (Option Value)) :
    (settle before result).machine.sink = (Exec.left result).sink := by
  rcases result with ⟨_ | value, after⟩ | ⟨fault, after⟩ <;> rfl

theorem tick_grows (machine : Machine) : machine.tick.machine.sink.Extends machine.sink := by
  rw [tick, sink_settle]
  rcases Exec.step_leads machine with ⟨_, _, _, stays, _, failed⟩ | ⟨frame, ip, _, _, leads⟩
  · rw [failed, Exec.left, stays.sink_eq]
    exact .refl machine.sink
  · exact leads.grows

theorem advance_grows (machine : Machine) (steps : Nat) :
    (machine.advance steps).machine.sink.Extends machine.sink := by
  refine advance_holds (·.machine.sink.Extends machine.sink) ?_ (.refl machine.sink) steps
  exact fun next grown => (tick_grows next).trans grown

def printed (machine : Machine) (frame : Frame) (rest : Array Value) (sink : Sink) : Machine :=
  { machine.resume frame (frame.ip + Instruction.print.size) with stack := rest, sink }

theorem tick_of_prints {rest : Array Value} {value : Value}
    (innermost : machine.frames.back? = some frame) (prints : frame.chunk.Has frame.ip .print)
    (top : machine.stack = rest.push value) {sink : Sink}
    {answer : Option String}
    (writes : machine.sink.write (Value.display value ++ "\n") = (sink, answer)) :
    machine.tick =
      answer.elim (.running (machine.printed frame rest sink)) fun reason =>
        .finished (.error ⟨.outputFailed reason, frame.line⟩)
          (machine.printed frame rest sink).reset := by
  have above : (machine.resume frame (frame.ip + Instruction.print.size)).stack = rest.push value :=
    top
  rw [tick, Exec.step_eq innermost prints, Exec.execute_print above, resume_sink, writes, innermost]
  cases answer <;> rfl

theorem tick_widens (bounds : machine.config ≤ wide) :
    Progress.Widens wide machine.tick (machine.under wide).tick := by
  rcases Exec.step_recasts bounds machine.sink with
    recasts | ⟨frame, rest, value, innermost, prints, top⟩
  · rw [tick, tick, show (machine.under wide).frames = machine.frames from rfl]
    change Exec.Recasts _ _ _ _ (Exec.step (machine.under wide)) at recasts
    generalize Exec.step machine = result at recasts
    generalize Exec.step (machine.under wide) = other at recasts
    cases recasts with
    | @ok value after quiet =>
      rw [quiet.recast_eq]
      cases value with
      | none => exact .running (quiet.config_eq ▸ bounds)
      | some value => exact .finished
    | error quiet =>
      rw [quiet.recast_eq]
      exact .finished
    | @overflow after _ quiet _ silent =>
      apply Progress.Widens.overflow
      rw [sink_settle, silent, ← quiet.sink_eq]
      exact .refl after.sink
  · rcases writes : machine.sink.write (Value.display value ++ "\n") with ⟨sink, answer⟩
    have writesToo : (machine.under wide).sink.write _ = (sink, answer) := writes
    have innermostToo : (machine.under wide).frames.back? = some frame := innermost
    rw [tick_of_prints innermost prints top writes,
      tick_of_prints innermostToo prints top writesToo]
    cases answer with
    | none => exact .running bounds
    | some reason => exact .finished

/-- The run lemma: as long as nothing overflows, both machines are at the same point. -/
theorem advance_widens (bounds : machine.config ≤ wide) (steps : Nat) :
    Progress.Widens wide (machine.advance steps) ((machine.under wide).advance steps) := by
  induction steps generalizing machine with
  | zero => exact .running bounds
  | succ steps ih =>
    have widened := tick_widens bounds
    rw [advance, advance]
    generalize machine.tick = progress at widened
    generalize (machine.under wide).tick = other at widened
    cases widened with
    | running within => exact ih within
    | finished => exact .finished
    | overflow grown =>
      cases other with
      | running next => exact .overflow ((advance_grows next steps).trans grown)
      | finished outcome last => exact .overflow grown

theorem interpret_grows (machine : Machine) (script : Function) (steps : Nat) :
    (machine.interpret script steps).machine.sink.Extends machine.sink := by
  rw [interpret, load_eq]
  split
  · next loaded ready =>
    split at ready
    · cases ready
      exact advance_grows (machine.loaded script) steps
    · cases ready
  · next outcome last ready =>
    split at ready
    · cases ready
    · cases ready
      exact .refl machine.sink

theorem interpret_widens (bounds : machine.config ≤ wide) (script : Function) (steps : Nat) :
    Progress.Widens wide (machine.interpret script steps)
      ((machine.under wide).interpret script steps) := by
  by_cases room : 0 < machine.config.stackSize
  · have more : 0 < (machine.under wide).config.stackSize := Nat.lt_of_lt_of_le room bounds.1
    rw [interpret, interpret, load_eq, load_eq, if_pos room, if_pos more]
    have within : (machine.loaded script).config ≤ wide := bounds
    exact advance_widens within steps
  · have grown := interpret_grows (machine.under wide) script steps
    rw [interpret, load_eq, if_neg room]
    exact .overflow grown

theorem advance_ended (ended : machine.advance steps = .finished outcome last) (more : Nat) :
    machine.advance (steps + more) = .finished outcome last := by
  induction steps generalizing machine with
  | zero => cases ended
  | succ steps ih =>
    rw [Nat.succ_add, advance]
    rw [advance] at ended
    split at ended
    · next next ticked => exact ih ended
    · exact ended

theorem interpret_ended {script : Function}
    (ended : machine.interpret script steps = .finished outcome last) (more : Nat) :
    machine.interpret script (steps + more) = .finished outcome last := by
  rw [interpret] at ended ⊢
  split at ended
  · exact advance_ended ended more
  · exact ended

end Machine

/--
A run that ends without an overflow ends in the same way under wider bounds, with the same output
and the same global variables. A run that overflows has written a part of what it writes under
wider bounds by the time it ends there.
-/
theorem interpret_monotone {machine last : Machine} {script : Function} {steps : Nat}
    {outcome : Except Failure Value} (wide : Config)
    (deeper : machine.config.stackSize ≤ wide.stackSize)
    (longer : machine.config.maxFrames ≤ wide.maxFrames)
    (ended : machine.interpret script steps = .finished outcome last) :
    ((∀ line, outcome ≠ .error ⟨.stackOverflow, line⟩) →
      ({ machine with config := wide } : Machine).interpret script steps =
        .finished outcome { last with config := wide }) ∧
    ∀ line, outcome = .error ⟨.stackOverflow, line⟩ → ∀ more other final,
      ({ machine with config := wide } : Machine).interpret script more = .finished other final →
        ∃ newer behind, final.sink =
          ⟨last.sink.policy, newer ++ last.sink.given, last.sink.written ++ behind⟩ := by
  have bounds : machine.config ≤ wide := ⟨deeper, longer⟩
  constructor
  · intro fits
    have widened := Machine.interpret_widens bounds script steps
    rw [ended] at widened
    generalize reached : (machine.under wide).interpret script steps = other at widened
    cases widened with
    | finished => exact reached
    | overflow => exact absurd rfl (fits _)
  · rintro line rfl more other final endedToo
    have endedWide : (machine.under wide).interpret script more = .finished other final := endedToo
    -- Both runs have ended after as many steps as both of them took together.
    have widened := Machine.interpret_widens bounds script (steps + more)
    rw [Machine.interpret_ended ended, Nat.add_comm, Machine.interpret_ended endedWide] at widened
    cases widened with
    | finished => exact Sink.Extends.refl _
    | overflow grown => exact grown

/-- Prints a text, loads two values and then ends in the middle of an instruction. -/
def cutShort : Function :=
  .script ⟨#[1, 0, 14, 7, 7, 21, 0], #[.string "a"], #[1, 1, 2, 2, 3], #[0, 2, 3, 4, 5]⟩

/-- Damaged code that overflows, that has just the room it needs, and that has more than that. -/
theorem interpret_monotone_cutShort :
    ∃ line overflown cut last,
      (Machine.fresh ⟨2, 1⟩ .unlimited).interpret cutShort 9 =
        .finished (.error ⟨.stackOverflow, line⟩) overflown ∧
      (Machine.fresh ⟨3, 1⟩ .unlimited).interpret cutShort 9 =
        .finished (.error ⟨.codeEnd, cut⟩) last ∧
      (Machine.fresh ⟨8, 4⟩ .unlimited).interpret cutShort 9 =
        .finished (.error ⟨.codeEnd, cut⟩) { last with config := ⟨8, 4⟩ } ∧
      ∃ newer behind, last.sink = ⟨overflown.sink.policy, newer ++ overflown.sink.given,
        overflown.sink.written ++ behind⟩ := by
  have overflows : (Machine.fresh ⟨2, 1⟩ .unlimited).interpret cutShort 9 =
      .finished (.error ⟨.stackOverflow, _⟩) _ := rfl
  have ended : (Machine.fresh ⟨3, 1⟩ .unlimited).interpret cutShort 9 =
      .finished (.error ⟨.codeEnd, _⟩) _ := rfl
  have same := (interpret_monotone ⟨8, 4⟩ (by decide) (by decide) ended).1
  have written := (interpret_monotone ⟨3, 1⟩ (by decide) (by decide) overflows).2
  refine ⟨_, _, _, _, overflows, ended, same ?_, written _ rfl 9 _ _ ended⟩
  rintro line ⟨⟩

end StackScript
