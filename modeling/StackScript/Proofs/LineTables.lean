import StackScript.Proofs.ExactPool
import StackScript.Proofs.Failures
import StackScript.Proofs.Observing.Agreement
import StackScript.Proofs.Provenance

/-!
# Lines that are reported

The lines of a function never go back, and a failure is reported for a line of the text that the
function was declared in. Line numbers are kept in 32 bits, which are enough for a text with fewer
than `UInt32.size - 1` line ends.
-/

namespace StackScript

variable {failure : Failure} {script : Function} {text : String}

namespace Chunk

variable {chunk : Chunk Constant}

end Chunk

theorem Session.fails {config : Config} {sink : Sink} {texts : List String} {machine last : Machine}
    {steps : Nat} (session : Session config sink texts machine)
    (compiled : compile text = .ok script) (room : 0 < machine.config.stackSize)
    (failed : machine.interpret script steps = .finished (.error failure) last) :
    ∃ done before frame after, done < steps ∧ machine.interpret script done = .running before ∧
      before.FailsIn frame failure after last ∧
      ∃ source ∈ texts ++ [text], ∃ holder, compile source = .ok holder ∧
        (loadedScripts (texts ++ [text]))[frame.callee.origin.run]? = some holder ∧
        holder.Within frame.callee.function := by
  have start := Machine.interpret_of_loads room script
  have orderly : Machine.Orderly machine.config (.script machine.runs script)
      (machine.loaded script) := ⟨rfl, room, Nat.le_max_left 1 _, 0, rfl⟩
  rw [start] at failed
  rcases orderly.exists_fails failed with ⟨done, before, frame, after, sooner, reaches, _, fails⟩
  have traces := session.records.interpret session.settled compiled done
  rw [start, reaches] at traces
  have libraryEq : loadedScripts (texts ++ [text]) = loadedScripts texts ++ [script] := by
    rw [loadedScripts_append, compiled]
    rfl
  have running : frame ∈ before.calls := by
    simpa [Machine.calls] using Array.mem_of_back? fails.innermost
  rcases traces.carries.calls frame running with ⟨sites, holder, found, located⟩
  rw [← libraryEq] at found
  rcases compile_of_mem_loadedScripts (List.mem_of_getElem? found) with ⟨source, present, compiles⟩
  exact ⟨done, before, frame, after, sooner, (start done).trans reaches, fails, source, present,
    holder, compiles, found, located.within⟩

/-! ## Numbers that 32 bits are enough for -/

section Exact

variable (few : lineEnds text < UInt32.size - 1)
include few

theorem Function.AnnouncedBy.line_eq {function : Function} {keyword : Token}
    (announced : function.AnnouncedBy text keyword) : keyword.line = keyword.row text := by
  rcases announced with ⟨_, _, _, _, suffix, _⟩
  exact (stands_of_mem_tokens (suffix.subset List.mem_cons_self)).exact_line few

end Exact

end StackScript
