import StackScript.Proofs.Provenance
import StackScript.Proofs.Simulation.Call

/-!
# Compiled programs do what their trees say

Where the evaluation of a tree comes to an end, the machine comes to the same end, with the same
output and global variables, unless there is no room for its values or its calls.
-/

namespace StackScript

open Reference

/-- Whether a run ends because the machine has no room. -/
def Machine.RunsOut (machine : Machine) (script : Function) : Prop :=
  ∃ steps line last, machine.interpret script steps =
      .finished (.error ⟨.stackOverflow, line⟩) last ∧
    (machine.config.stackSize = 0 ∨
      ∃ earlier full, machine.interpret script earlier = .running full ∧ full.IsFull)

/-- Whether a run of a script comes to what an evaluation came to. -/
def Machine.Accords (library : List Function) (machine : Machine) (script : Function) :
    EStateM.Result Stop State Flow → Prop
  | .ok _ state => machine.RunsOut script ∨
      ∃ steps last, machine.interpret script steps = .finished (.ok .nil) last ∧
        Reports ⟨library, machine.sink.written⟩ last.globals last.sink state
  | .error (.fault fault) state => machine.RunsOut script ∨
      ∃ steps line last, machine.interpret script steps =
          .finished (.error ⟨fault, line⟩) last ∧
        Reports ⟨library, machine.sink.written⟩ last.globals last.sink state
  | .error .outOfFuel _ => True

namespace Activation

/-- The call of a script. -/
def root (machine : Machine) (script : Function) : Activation where
  config := machine.config
  below := #[]
  callers := #[]
  callee := .script machine.runs script
  runs := machine.runs + 1

def rootStore (machine : Machine) (script : Function) : Store :=
  ⟨#[.function (.script machine.runs script)], machine.globals, machine.sink⟩

variable {history : History} {machine : Machine} {script : Function} {program : Statement}
  {meanings : Std.TreeMap String Meaning}

theorem loaded_eq (machine : Machine) (script : Function) :
    machine.loaded script = (root machine script).machine 0 #[] (rootStore machine script) := by
  simp [Machine.loaded, root, rootStore, Activation.machine]

theorem mirrors_start (printed : history.printed = machine.sink.written)
    (unlimited : machine.sink.policy = .takeAll)
    (agree : GlobalsMatch history.library machine.globals meanings) :
    (rootStore machine script).Mirrors history .script [[""]]
      (start program machine.runs meanings) := by
  apply Store.Mirrors.of_forall_slots
  · rfl
  · exact .cons (fun named => absurd rfl (named rfl)) .nil
  · refine ⟨agree, unlimited, ?_⟩
    simp [rootStore, start, printed]

theorem suits_script (body : Statement) : Layout.script.Suits body [[""]] := by
  refine ⟨rfl, by simp, ?_, ?_⟩
  · intro _
    simp [Layout.script]
  · intro loop inLoop
    cases inLoop

theorem follows_script {done : Nat} {marks : List (Nat × Nat)}
    (placed : program.Placed) (named : program.Named)
    (code : program.CodeAt script.chunk .script 0 done marks)
    (finishes : script.chunk.HasAll [.loadNil, .ret] done script.chunk.size)
    (loaded : history.library[machine.runs]? = some script)
    (mirrors : (rootStore machine script).Mirrors history .script [[""]]
      (start program machine.runs meanings)) (fuel : Nat) :
    (machine.loaded script).Follows history
      (fun _ after next => ∃ store,
        next = (root machine script).machine (done + 1) (#[].push .nil) store ∧
        Reports history store.globals store.sink after)
      (run fuel program machine.runs meanings) := by
  have runs : (root machine script).Runs history .script ⟨machine.runs, []⟩ :=
    ⟨rfl, ⟨script, loaded, .script⟩, fun isFunction => by cases isFunction⟩
  have code : program.CodeAt (root machine script).chunk .script 0 done marks := code
  have loads : (root machine script).chunk.Has done (KeywordLiteral.nil.opcode.instruction 0) :=
    finishes.1
  rw [loaded_eq]
  apply Machine.Follows.andThen
    (program.simulated (invokes history fuel) fuel placed code (fun _ => named)
      (suits_script program) runs mirrors)
  intro flow after next reached
  cases flow with
  | normal =>
    rcases reached with ⟨store, rfl, mirrors⟩
    apply follows_literal loads
    apply Machine.Follows.done
    exact ⟨store, rfl, mirrors.shows.reports⟩
  | returned meaning =>
    rcases reached with ⟨isFunction, _⟩
    cases isFunction
  | broke | continued =>
    rcases reached with ⟨loop, inLoop, _⟩
    cases inLoop

theorem tick_finish {ip : Nat} {store : Store} (returns : script.chunk.Has ip .ret) :
    ((root machine script).machine ip (#[].push .nil) store).tick =
      .finished (.ok .nil) ((root machine script).ended store.globals store.sink) := by
  have found : (root machine script).chunk.Has ip .ret := returns
  rw [Machine.tick, step_ret found]
  rfl

end Activation

namespace Machine

variable {machine next last : Machine} {script : Function} {steps : Nat} {library : List Function}
  {result : EStateM.Result Stop State Flow}

theorem advance_finish {outcome : Except Failure Value}
    (reached : machine.advance steps = .running next) (ended : next.tick = .finished outcome last) :
    machine.advance (steps + 1) = .finished outcome last := by
  rw [advance_add reached, advance, ended]

theorem RunsOut.ofOverflows (room : 0 < machine.config.stackSize)
    (overflows : (machine.loaded script).Overflows) : machine.RunsOut script := by
  rcases overflows with ⟨full, line, last, ⟨steps, reached⟩, isFull, ended⟩
  refine ⟨steps + 1, line, last, ?_, Or.inr ⟨steps, full, ?_, isFull⟩⟩
  · rw [interpret_of_loads room, advance_finish reached ended]
  · rw [interpret_of_loads room, reached]

theorem RunsOut.ofNoRoom (noRoom : machine.config.stackSize = 0) : machine.RunsOut script := by
  refine ⟨0, 0, { machine.reset with runs := machine.runs + 1 }, ?_, Or.inl noRoom⟩
  rw [Machine.interpret, Machine.load_eq, if_neg (by omega)]

theorem Accords.ofRunsOut (runsOut : machine.RunsOut script) :
    machine.Accords library script result := by
  rcases result with ⟨flow, state⟩ | ⟨stop, state⟩
  · exact Or.inl runsOut
  · cases stop with
    | outOfFuel => trivial
    | fault fault => exact Or.inl runsOut

theorem Accords.ofFollows {post : Flow → State → Machine → Prop}
    (room : 0 < machine.config.stackSize)
    (follows : (machine.loaded script).Follows ⟨library, machine.sink.written⟩ post result)
    (ends : ∀ flow after next, post flow after next → ∃ last,
      next.tick = .finished (.ok .nil) last ∧
      Reports ⟨library, machine.sink.written⟩ last.globals last.sink after) :
    machine.Accords library script result := by
  rcases result with ⟨flow, state⟩ | ⟨stop, state⟩
  · rcases follows with overflows | ⟨next, ⟨steps, reached⟩, holds⟩
    · exact Or.inl (.ofOverflows room overflows)
    · rcases ends flow state next holds with ⟨last, ended, reports⟩
      refine Or.inr ⟨steps + 1, last, ?_, reports⟩
      rw [interpret_of_loads room, advance_finish reached ended]
  · cases stop with
    | outOfFuel => trivial
    | fault fault =>
      rcases follows with overflows | ⟨last, ⟨steps, line, ended⟩, reports⟩
      · exact Or.inl (.ofOverflows room overflows)
      · refine Or.inr ⟨steps, line, last, ?_, reports⟩
        rw [interpret_of_loads room, ended]

end Machine

/--
Compiled programs do what their trees say. In a session whose output always has room, the text is
the tree of its tokens, the global variables are those of an evaluation, and whenever the evaluation
of the tree ends, the run accords with it.
-/
theorem interpret_accords {config : Config} {sink : Sink} {texts : List String} {machine : Machine}
    {text : String} {script : Function} (session : Session config sink texts machine)
    (unlimited : sink.policy = .takeAll) (compiled : compile text = .ok script) :
    ∃ program, Grammar.Program (tokens text) program ∧
      (∃ meanings, GlobalsMatch (loadedScripts texts) machine.globals meanings) ∧
      ∀ meanings, GlobalsMatch (loadedScripts texts) machine.globals meanings → ∀ fuel,
        machine.Accords (loadedScripts (texts ++ [text])) script
          (Reference.run fuel program machine.runs meanings) := by
  rcases Function.laid_of_compile compiled with ⟨program, stops, derives, _, laid⟩
  rcases laid.implements with ⟨done, code, finishes⟩
  refine ⟨program, derives, session.exists_meanings, ?_⟩
  intro meanings agree fuel
  have records := session.records
  have libraryEq : loadedScripts (texts ++ [text]) = loadedScripts texts ++ [script] := by
    rw [loadedScripts_append, compiled]
    rfl
  rw [libraryEq]
  rcases Nat.eq_zero_or_pos machine.config.stackSize with noRoom | room
  · exact .ofRunsOut (.ofNoRoom noRoom)
  · have agreeToo : GlobalsMatch (loadedScripts texts ++ [script]) machine.globals meanings :=
      agree.extend script
    have mirrors : (Activation.rootStore machine script).Mirrors
        ⟨loadedScripts texts ++ [script], machine.sink.written⟩ .script [[""]]
        (start program machine.runs meanings) :=
      Activation.mirrors_start rfl (records.policy_eq.trans unlimited) agreeToo
    have loaded : (loadedScripts texts ++ [script])[machine.runs]? = some script := by
      simp [records.runs_eq]
    apply Machine.Accords.ofFollows room
      (Activation.follows_script laid.placed (laid.named rfl) code finishes loaded mirrors fuel)
    rintro flow after _ ⟨store, rfl, reports⟩
    exact ⟨_, Activation.tick_finish finishes.2.1, reports⟩

/-- A later program that compares functions, one of which an earlier program left behind. -/
theorem interpret_accords_nestedText :
    ∃ machine script, Session ⟨64, 8⟩ .unlimited [nestedText] machine ∧
      Sink.unlimited.policy = .takeAll ∧ compile "print f(nil) == f;" = .ok script ∧
      ∃ program, Grammar.Program (tokens "print f(nil) == f;") program ∧
        (∃ meanings, GlobalsMatch (loadedScripts [nestedText]) machine.globals meanings) ∧
        ∀ meanings, GlobalsMatch (loadedScripts [nestedText]) machine.globals meanings → ∀ fuel,
          machine.Accords (loadedScripts ([nestedText] ++ ["print f(nil) == f;"])) script
            (Reference.run fuel program machine.runs meanings) := by
  rcases runs_nestedText with ⟨first, _, script, compiledFirst, _, compiled, _, _, last, ends⟩
  have session : Session ⟨64, 8⟩ .unlimited [nestedText] last := .ran .fresh compiledFirst ends
  exact ⟨last, script, session, rfl, compiled, interpret_accords session rfl compiled⟩

end StackScript
