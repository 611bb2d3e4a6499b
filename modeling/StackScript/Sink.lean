/-!
# Output sinks

A machine hands its output over, one text after another. A sink takes a text or refuses it, and
tells why. What it does may depend on all that it was given before, so any writer can stand behind a
sink, whatever state it keeps.
-/

namespace StackScript

/-- How a text was refused: the number of its bytes that were taken all the same, and the reason. -/
structure Refusal where
  taken : Nat
  reason : String

/--
When a text is refused, told by the bytes that were taken before it and the texts that were given
before it, the latest first.
-/
abbrev Policy := ByteArray → List String → String → Option Refusal

namespace Policy

def takeAll : Policy :=
  fun _ _ _ => none

/-- Why a text is refused that does not fit. -/
def fullReason : String := "sink full"

/-- Takes up to `capacity` bytes in total: of a text that does not fit, the part that does. -/
def upTo (capacity : Nat) : Policy := fun written _ text =>
  let room := capacity - written.size
  if text.toUTF8.size ≤ room then none else some ⟨room, fullReason⟩

end Policy

/-- Where the output goes. -/
structure Sink where
  policy : Policy
  /-- The texts that were given, the latest first. -/
  given : List String
  /-- The bytes that were taken. -/
  written : ByteArray

namespace Sink

def ofPolicy (policy : Policy) : Sink :=
  ⟨policy, [], .empty⟩

/-- A sink that takes everything. -/
def unlimited : Sink :=
  ofPolicy .takeAll

/-- A sink that takes `capacity` bytes in total. -/
def limited (capacity : Nat) : Sink :=
  ofPolicy (.upTo capacity)

/-- Why a text is refused, if it is. -/
def refusal? (sink : Sink) (text : String) : Option Refusal :=
  sink.policy sink.written sink.given text

/-- What a sink takes of a text. -/
def taken (sink : Sink) (text : String) : ByteArray :=
  match sink.refusal? text with
  | none => text.toUTF8
  | some refusal => text.toUTF8.extract 0 refusal.taken

/-- Gives a text to a sink, which answers with the reason if it refuses the text. -/
def write (sink : Sink) (text : String) : Sink × Option String :=
  ({ sink with given := text :: sink.given, written := sink.written ++ sink.taken text },
    (sink.refusal? text).map Refusal.reason)

theorem write_of_takeAll {sink : Sink} (free : sink.policy = .takeAll) (text : String) :
    sink.write text =
      ({ sink with given := text :: sink.given, written := sink.written ++ text.toUTF8 },
        none) := by
  rw [write, taken, refusal?, free]
  rfl

end Sink

/-- A writer that keeps a state of its own. -/
structure Writer (σ : Type) where
  write : σ → String → σ × Option Refusal

namespace Writer

variable {σ : Type} (writer : Writer σ)

/-- The state that a writer comes to, given texts one after another, the latest first. -/
def after (start : σ) (given : List String) : σ :=
  given.foldr (fun text state => (writer.write state text).1) start

/-- The sink that refuses what a writer refuses from `start` on. -/
def sink (start : σ) : Sink :=
  .ofPolicy fun _ given text => (writer.write (writer.after start given) text).2

/-- Every writer is a sink: both refuse the same texts for the same reasons. -/
theorem write_eq {start : σ} {sink : Sink} (same : sink.policy = (writer.sink start).policy)
    (text : String) :
    (sink.write text).2 =
        (writer.write (writer.after start sink.given) text).2.map Refusal.reason ∧
      (sink.write text).1.policy = (writer.sink start).policy ∧
      writer.after start (sink.write text).1.given =
        (writer.write (writer.after start sink.given) text).1 := by
  refine ⟨?_, same, rfl⟩
  rw [Sink.write, Sink.refusal?, same]
  rfl

end Writer

end StackScript
