import StackScript.Proofs.WiderBounds

/-!
# A sink that fills up

Nothing but printing looks at the output. So two machines that differ in nothing but the capacity of
their sinks do the same steps until one of them prints more than its sink takes. There it fails,
with the sink filled to its capacity. Nothing is assumed about the code.
-/

namespace StackScript

variable {bytes : ByteArray}

/-! ## Sinks -/

theorem extract_of_size_le {limit : Nat} (fits : bytes.size ≤ limit) :
    bytes.extract 0 limit = bytes := by
  apply ByteArray.ext
  rw [ByteArray.data_extract]
  exact Array.extract_eq_self_of_le fits

theorem extract_append_of_le {limit : Nat} (inside : limit ≤ bytes.size) (more : ByteArray) :
    (bytes ++ more).extract 0 limit = bytes.extract 0 limit := by
  rw [ByteArray.extract_append, Nat.sub_eq_zero_of_le inside]
  simp

namespace Sink

def capped (sink : Sink) (limit : Nat) : Sink :=
  { sink with policy := .upTo limit }

/-- What a sink with a capacity makes of a text, told by what one without a capacity makes of it. -/
theorem write_capped {sink : Sink} {limit : Nat} (fits : sink.written.size ≤ limit)
    (text : String) :
    (sink.capped limit).write text =
      (⟨.upTo limit, text :: sink.given, (sink.written ++ text.toUTF8).extract 0 limit⟩,
        if (sink.written ++ text.toUTF8).size ≤ limit then none else some Policy.fullReason) := by
  have sizeEq : (sink.written ++ text.toUTF8).size = sink.written.size + text.toUTF8.size :=
    ByteArray.size_append
  by_cases enough : text.toUTF8.size ≤ limit - sink.written.size
  · have all : (sink.written ++ text.toUTF8).size ≤ limit := by omega
    have answer : (sink.capped limit).refusal? text = none := if_pos enough
    rw [extract_of_size_le all, if_pos all, write, taken, answer]
    rfl
  · have part : ¬(sink.written ++ text.toUTF8).size ≤ limit := by omega
    have answer : (sink.capped limit).refusal? text =
        some ⟨limit - sink.written.size, Policy.fullReason⟩ := if_neg enough
    rw [if_neg part, ByteArray.extract_append, extract_of_size_le fits, Nat.zero_sub, write, taken,
      answer]
    rfl

end Sink

/-! ## Machines -/

namespace Machine

def writingTo (machine : Machine) (sink : Sink) : Machine :=
  { machine with sink }

def capped (machine : Machine) (limit : Nat) : Machine :=
  machine.writingTo (machine.sink.capped limit)

end Machine

namespace Exec

def writingTo {α : Type} (sink : Sink) :
    EStateM.Result Fault Machine α → EStateM.Result Fault Machine α
  | .ok value machine => .ok value (machine.writingTo sink)
  | .error fault machine => .error fault (machine.writingTo sink)

/-- Whether an action on a machine neither touches the output nor looks at it. -/
structure Silent {α : Type} (action : Exec α) (machine : Machine) : Prop where
  kept : (left (action machine)).sink = machine.sink
  blind : ∀ sink, action (machine.writingTo sink) = writingTo sink (action machine)

theorem Recasts.kept {α : Type} {machine : Machine} {config : Config} {sink : Sink}
    {result other : EStateM.Result Fault Machine α}
    (recasts : Recasts machine config sink result other) : (left result).sink = machine.sink := by
  cases recasts with
  | ok quiet | error quiet | overflow quiet _ _ => exact quiet.sink_eq

theorem Recasts.blind {α : Type} {machine : Machine} {sink : Sink}
    {result other : EStateM.Result Fault Machine α}
    (recasts : Recasts machine machine.config sink result other) :
    other = writingTo sink result := by
  cases recasts with
  | ok quiet | error quiet =>
    rw [← quiet.config_eq]
    rfl
  | overflow _ differs _ => exact absurd rfl differs

theorem step_silent_or_prints (machine : Machine) :
    Silent step machine ∨ ∃ (frame : Frame) (rest : Array Value) (value : Value),
      machine.frames.back? = some frame ∧ frame.chunk.Has frame.ip .print ∧
      machine.stack = rest.push value := by
  have same : machine.config ≤ machine.config := ⟨Nat.le_refl _, Nat.le_refl _⟩
  by_cases prints : ∃ (frame : Frame) (rest : Array Value) (value : Value),
      machine.frames.back? = some frame ∧ frame.chunk.Has frame.ip .print ∧
      machine.stack = rest.push value
  · exact .inr prints
  · have recasts sink := (step_recasts same sink).resolve_right prints
    exact .inl ⟨(recasts machine.sink).kept, fun sink => (recasts sink).blind⟩

end Exec

/-! ## Runs -/

def Progress.capped (limit : Nat) : Progress → Progress
  | running machine => .running (machine.capped limit)
  | finished outcome last => .finished outcome (last.capped limit)

namespace Machine

/--
Whether a machine that has kept within the limit so far is about to print more than that, and ends
in `cut` for that reason if the limit is the capacity of its sink.
-/
structure Spills (machine : Machine) (limit : Nat) (frame : Frame) (cut : Machine) : Prop where
  fits : machine.sink.written.size ≤ limit
  innermost : machine.frames.back? = some frame
  prints : frame.chunk.Has frame.ip .print
  passes : limit < machine.tick.machine.sink.written.size
  fails : (machine.capped limit).tick =
    .finished (.error ⟨.outputFailed Policy.fullReason, frame.line⟩) cut
  written_eq : cut.sink.written = machine.tick.machine.sink.written.extract 0 limit
  globals_eq : cut.globals = machine.globals

variable {machine last : Machine} {limit : Nat} {frame : Frame} {outcome : Except Failure Value}
  {steps : Nat}

theorem settle_capped (before : Option Frame)
    (result : EStateM.Result Fault Machine (Option Value)) (limit : Nat) :
    (settle before result).capped limit =
      settle before (Exec.writingTo ((Exec.left result).sink.capped limit) result) := by
  rcases result with ⟨_ | value, after⟩ | ⟨fault, after⟩ <;> rfl

theorem tick_capped_of_silent (silent : Exec.Silent Exec.step machine) (limit : Nat) :
    (machine.capped limit).tick = machine.tick.capped limit := by
  rw [tick, tick, settle_capped, silent.kept, ← silent.blind]
  rfl

theorem tick_capped (free : machine.sink.policy = .takeAll)
    (fits : machine.sink.written.size ≤ limit) :
    (machine.tick.machine.sink.policy = .takeAll ∧
      machine.tick.machine.sink.written.size ≤ limit ∧
      (machine.capped limit).tick = machine.tick.capped limit) ∨
    ∃ frame cut, machine.Spills limit frame cut := by
  rcases Exec.step_silent_or_prints machine with silent |
    ⟨frame, rest, value, innermost, prints, top⟩
  · have sinkEq : machine.tick.machine.sink = machine.sink := (sink_settle _ _).trans silent.kept
    rw [sinkEq]
    exact .inl ⟨free, fits, tick_capped_of_silent silent limit⟩
  · have unbounded := Sink.write_of_takeAll free (Value.display value ++ "\n")
    have bounded := Sink.write_capped fits (Value.display value ++ "\n")
    have ticked := tick_of_prints innermost prints top unbounded
    have same : (machine.capped limit).frames.back? = some frame := innermost
    have cappedTicked := tick_of_prints same prints top bounded
    generalize machine.sink.written ++ (Value.display value ++ "\n").toUTF8 = written at *
    by_cases enough : written.size ≤ limit
    · rw [extract_of_size_le enough, if_pos enough] at cappedTicked
      rw [ticked]
      exact .inl ⟨free, enough, cappedTicked⟩
    · rw [if_neg enough] at cappedTicked
      right
      exact ⟨frame, _, fits, innermost, prints, ticked ▸ Nat.not_le.mp enough, cappedTicked,
        ticked ▸ rfl, rfl⟩

theorem extends_tick (ended : machine.advance (steps + 1) = .finished outcome last) :
    last.sink.Extends machine.tick.machine.sink := by
  rw [advance] at ended
  split at ended
  · next next ticked =>
    have grown := advance_grows next steps
    rw [ended] at grown
    rw [ticked]
    exact grown
  · next ticked =>
    cases ended
    rw [ticked]
    exact .refl last.sink

/-- A run with a capacity: it ends as it would without, or at the first text that does not fit. -/
theorem advance_capped (free : machine.sink.policy = .takeAll)
    (fits : machine.sink.written.size ≤ limit)
    (ended : machine.advance steps = .finished outcome last) :
    (last.sink.written.size ≤ limit ∧
      (machine.capped limit).advance steps = .finished outcome (last.capped limit)) ∨
    ∃ taken before frame cut, machine.advance taken = .running before ∧
      before.Spills limit frame cut ∧
      limit < last.sink.written.size ∧
      cut.sink.written = last.sink.written.extract 0 limit ∧
      (machine.capped limit).advance steps =
        .finished (.error ⟨.outputFailed Policy.fullReason, frame.line⟩) cut := by
  induction steps generalizing machine with
  | zero => cases ended
  | succ steps ih =>
    rcases tick_capped free fits with ⟨freeAfter, fitsAfter, tickEq⟩ | ⟨frame, cut, spills⟩
    · rw [advance, tickEq]
      rw [advance] at ended
      cases ticked : machine.tick with
      | running next =>
        rw [ticked] at ended freeAfter fitsAfter
        rcases ih freeAfter fitsAfter ended with same | ⟨taken, before, frame, cut, reaches, rest⟩
        · exact .inl same
        · refine .inr ⟨taken + 1, before, frame, cut, ?_, rest⟩
          rw [advance, ticked]
          exact reaches
      | finished other final =>
        rw [ticked] at ended fitsAfter
        cases ended
        exact .inl ⟨fitsAfter, rfl⟩
    · right
      rcases extends_tick ended with ⟨_, more, sinkEq⟩
      have writtenEq := congrArg Sink.written sinkEq
      have passes := spills.passes
      refine ⟨0, machine, frame, cut, rfl, spills, ?_, ?_, ?_⟩
      · rw [writtenEq, ByteArray.size_append]
        omega
      · rw [writtenEq, extract_append_of_le (Nat.le_of_lt passes)]
        exact spills.written_eq
      · rw [advance, spills.fails]

end Machine

/--
A run whose sink takes everything ends in the same way when its sink has a capacity that its output
does not pass. If its output passes the capacity, the run fails at the first print that does. By
then the sink holds just as much of the output as it can take, and the global variables have the
values they had before that print.
-/
theorem interpret_capped {machine last : Machine} {script : Function} {steps limit : Nat}
    {outcome : Except Failure Value} (free : machine.sink.policy = .takeAll)
    (fits : machine.sink.written.size ≤ limit)
    (ended : machine.interpret script steps = .finished outcome last) :
    (last.sink.written.size ≤ limit →
      ({ machine with sink := { machine.sink with policy := .upTo limit } } : Machine).interpret
          script steps =
        .finished outcome { last with sink := { last.sink with policy := .upTo limit } }) ∧
    (limit < last.sink.written.size → ∃ taken before frame cut,
      machine.interpret script taken = .running before ∧
      before.sink.written.size ≤ limit ∧
      before.frames.back? = some frame ∧ frame.chunk.Has frame.ip .print ∧
      limit < before.tick.machine.sink.written.size ∧
      ({ machine with sink := { machine.sink with policy := .upTo limit } } : Machine).interpret
          script steps =
        .finished (.error ⟨.outputFailed Policy.fullReason, frame.line⟩) cut ∧
      (Fault.outputFailed Policy.fullReason).status =
        ⟨.runtime, "Failed to write output: " ++ Policy.fullReason⟩ ∧
      cut.sink.written = last.sink.written.extract 0 limit ∧
      cut.globals = before.globals) := by
  by_cases room : 0 < machine.config.stackSize
  · have cappedRoom : 0 < (machine.capped limit).config.stackSize := room
    have loadedFree : (machine.loaded script).sink.policy = .takeAll := free
    have loadedFits : (machine.loaded script).sink.written.size ≤ limit := fits
    have start := Machine.interpret_of_loads room script
    have cappedStart : (machine.capped limit).interpret script steps =
        ((machine.loaded script).capped limit).advance steps :=
      Machine.interpret_of_loads cappedRoom script steps
    rw [start] at ended
    rcases Machine.advance_capped loadedFree loadedFits ended with
      ⟨within, same⟩ | ⟨taken, before, frame, cut, reaches, spills, passes, writtenEq, fails⟩
    · exact ⟨fun _ => cappedStart.trans same, fun beyond => absurd within (Nat.not_le.mpr beyond)⟩
    · refine ⟨fun within => absurd within (Nat.not_le.mpr passes), fun _ => ?_⟩
      exact ⟨taken, before, frame, cut, (start taken).trans reaches, spills.fits, spills.innermost,
        spills.prints, spills.passes, cappedStart.trans fails, rfl, writtenEq, spills.globals_eq⟩
  · rw [Machine.interpret, Machine.load_eq, if_neg room] at ended
    cases ended
    refine ⟨fun _ => ?_, fun beyond => absurd fits (Nat.not_le.mpr beyond)⟩
    rw [Machine.interpret, Machine.load_eq, if_neg room]
    rfl

/-- Prints a text of two bytes, gives a variable a value and prints that. -/
def twoLines : Function :=
  .script ⟨#[1, 0, 14, 8, 16, 1, 18, 1, 14, 7, 0], #[.string "é", .string "x"],
    #[1, 1, 2, 2, 3, 3, 4, 4], #[0, 2, 3, 4, 6, 8, 9, 10]⟩

/-- The output just fits, and it is cut within a character, before a newline and within a word. -/
theorem interpret_capped_twoLines :
    ∃ last, (Machine.fresh ⟨4, 1⟩ .unlimited).interpret twoLines 9 = .finished (.ok .nil) last ∧
      last.sink.written.size = 8 ∧
      (Machine.fresh ⟨4, 1⟩ (.limited 8)).interpret twoLines 9 =
        .finished (.ok .nil) { last with sink := { last.sink with policy := .upTo 8 } } ∧
      ∀ limit ∈ [1, 2, 5], ∃ line cut,
        (Machine.fresh ⟨4, 1⟩ (.limited limit)).interpret twoLines 9 =
          .finished (.error ⟨.outputFailed Policy.fullReason, line⟩) cut ∧
        cut.sink.written = last.sink.written.extract 0 limit := by
  have ends : ∃ last, (Machine.fresh ⟨4, 1⟩ .unlimited).interpret twoLines 9 =
      .finished (.ok .nil) last := ⟨_, rfl⟩
  have length : ((Machine.fresh ⟨4, 1⟩ .unlimited).interpret twoLines 9).machine.sink.written.size =
      8 := by decide +kernel
  rcases ends with ⟨last, ended⟩
  rw [ended] at length
  have same := (interpret_capped rfl (Nat.zero_le 8) ended).1 (Nat.le_of_eq length)
  refine ⟨last, ended, length, same, fun limit chosen => ?_⟩
  have short : ∀ limit ∈ [1, 2, 5], limit < 8 := by decide
  have passes : limit < last.sink.written.size :=
    Nat.lt_of_lt_of_eq (short limit chosen) length.symm
  rcases (interpret_capped rfl (Nat.zero_le limit) ended).2 passes with
    ⟨_, _, frame, cut, _, _, _, _, _, fails, _, writtenEq, _⟩
  exact ⟨frame.line, cut, fails, writtenEq⟩

end StackScript
