import StackScript.Proofs.Correspondence
import StackScript.Proofs.Safety

/-!
# Where functions come from

Every function that a session can meet was declared in one of the programs that it has loaded. A
program itself lies at the bottom of the stack, where nothing reads it.
-/

namespace StackScript

open Reference

/-- The scripts that a session has loaded, in the order of their runs. -/
def loadedScripts (texts : List String) : List Function :=
  texts.filterMap fun text => (compile text).toOption

/-- Whether a function stands in a script of the library, at places that `sites` count. -/
def Callable.Traced (library : List Function) (callable : Callable) (sites : List Nat) : Prop :=
  ∃ script, library[callable.origin.run]? = some script ∧
    script.Located callable.origin.path sites callable.function

/-- Whether a function is declared in a script of the library. -/
def Callable.Declared (library : List Function) (callable : Callable) : Prop :=
  callable.origin.path ≠ [] ∧ ∃ sites, callable.Traced library sites

namespace Machine

/-- What holds of a machine between the runs of scripts. -/
structure Records (library : List Function) (policy : Policy) (machine : Machine) : Prop where
  globals : machine.Keeps (Callable.Declared library)
  runs_eq : machine.runs = library.length
  policy_eq : machine.sink.policy = policy

/-- What holds of a machine that runs a script: nothing but its bottom holds a script itself. -/
structure Traces (library : List Function) (policy : Policy) (machine : Machine) :
    Prop extends Records library policy machine where
  carries : machine.Carries (Callable.Declared library)
    (fun callable => ∃ sites, callable.Traced library sites) 1

end Machine

/-- What holds after some steps of a script: afterwards, of the machine that is left. -/
def Progress.Traces (library : List Function) (policy : Policy) : Progress → Prop
  | .running machine => machine.Traces library policy
  | .finished _ machine => machine.Records library policy

variable {library : List Function} {policy : Policy} {value : Value} {script : Function}
  {texts : List String} {config : Config} {machine : Machine}

theorem Callable.Declared.extend {callable : Callable} (declared : callable.Declared library)
    (script : Function) : callable.Declared (library ++ [script]) := by
  rcases declared with ⟨inside, sites, holder, found, located⟩
  refine ⟨inside, sites, holder, ?_, located⟩
  rw [List.getElem?_append_left (List.getElem?_eq_some_iff.mp found).1]
  exact found

namespace Machine

theorem Traces.tick (traces : machine.Traces library policy) (sound : machine.Sound script)
    (running : machine.calls ≠ []) : Progress.Traces library policy machine.tick := by
  rcases sound.exists_step running with
    ⟨frame, callers, instruction, callsEq, _, _, found, enough, allowed, notRoot⟩
  rw [Machine.tick]
  generalize Exec.step machine = result at allowed
  cases result with
  | error fault after =>
    rcases allowed with ⟨_, globalsEq, same⟩
    refine ⟨?_, same.runs_eq.trans traces.runs_eq, same.policy_eq.trans traces.policy_eq⟩
    change ∀ (name : String) (value : Value), after.globals[name]? = some value → _
    rw [globalsEq]
    exact traces.globals
  | ok result after =>
    rcases allowed with ⟨stepped, same⟩
    cases result with
    | some value =>
      cases stepped
      exact { traces.toRecords with }
    | none =>
      have running : frame ∈ machine.calls := by simp [callsEq]
      rcases traces.carries.calls frame running with ⟨sites, holder, stands, located⟩
      have carried := traces.carries.stepped (Nat.le_refl 1)
        (fun _ _ _ held => ⟨List.cons_ne_nil _ _, _, holder, stands, located.inside held⟩)
        notRoot (fun _ declared => declared.2) callsEq enough stepped
      exact ⟨⟨carried.globals, same.runs_eq.trans traces.runs_eq,
        same.policy_eq.trans traces.policy_eq⟩, carried⟩

theorem Traces.advance (traces : machine.Traces library policy) (sound : machine.Sound script)
    (running : machine.calls ≠ []) (steps : Nat) :
    Progress.Traces library policy (machine.advance steps) := by
  refine (advance_holds (fun progress => progress.Traces library policy ∧ progress.Sound script)
    ?_ ⟨traces, sound, running⟩ steps).1
  rintro machine ⟨traces, sound, running⟩
  exact ⟨traces.tick sound running, sound.tick running⟩

theorem Records.load (records : machine.Records library policy) (script : Function) :
    Progress.Traces (library ++ [script]) policy (machine.load script) := by
  have globals : machine.Keeps (Callable.Declared (library ++ [script])) := by
    intro name value known callable isFunction
    exact (records.globals name value known callable isFunction).extend script
  have runsEq : machine.runs + 1 = (library ++ [script]).length := by
    simp [records.runs_eq]
  rw [Machine.load_eq]
  split
  · refine ⟨⟨globals, runsEq, records.policy_eq⟩, globals.loaded (by simp) ?_⟩
    refine ⟨[], script, ?_, .script⟩
    simp [Callable.script, records.runs_eq]
  · exact ⟨globals, runsEq, records.policy_eq⟩

theorem Records.interpret {text : String} (records : machine.Records library policy)
    (settled : machine.Settled) (compiled : compile text = .ok script) (steps : Nat) :
    Progress.Traces (library ++ [script]) policy (machine.interpret script steps) := by
  have traced := records.load script
  have sound := settled.load compiled
  rw [Machine.interpret]
  generalize machine.load script = progress at traced sound
  cases progress with
  | running next => exact Traces.advance traced sound.1 sound.2 steps
  | finished outcome last => exact traced

end Machine

theorem loadedScripts_append (texts : List String) (text : String) :
    loadedScripts (texts ++ [text]) = loadedScripts texts ++ (compile text).toOption.toList := by
  rw [loadedScripts, List.filterMap_append, loadedScripts]
  cases compiled : compile text <;> simp [Except.toOption, compiled]

theorem Session.records {sink : Sink} (session : Session config sink texts machine) :
    machine.Records (loadedScripts texts) sink.policy := by
  induction session with
  | fresh =>
    refine ⟨?_, rfl, rfl⟩
    intro name value known
    simp [Machine.fresh] at known
  | rejected earlier refused ih =>
    rw [loadedScripts_append, refused]
    simpa [Except.toOption] using ih
  | @ran _ _ _ _ _ steps _ earlier compiled ends ih =>
    have ran := ih.interpret earlier.settled compiled steps
    rw [ends] at ran
    rw [loadedScripts_append, compiled]
    exact ran

/-! ## Trees of functions -/

namespace Function

variable {text : String} {function : Function} {path sites : List Nat}

theorem Located.within (located : script.Located path sites function) : script.Within function := by
  induction located with
  | script => exact .self
  | inside _ held ih => exact ih.pooled held

theorem Located.written (located : script.Located path sites function)
    (compiled : compile text = .ok script) (inside : path ≠ []) : function.Written := by
  cases located with
  | script => exact absurd rfl inside
  | inside outer held =>
    rcases written_of_within compiled outer.within with rfl | written
    · rcases laid_of_compile compiled with ⟨program, stops, _, _, laid⟩
      exact laid.finished.functions_written _ _ held
    · exact written.pooled held

end Function

theorem Callable.Traced.exists_known {callable : Callable} {sites : List Nat}
    (compiles : ∀ script ∈ library, ∃ text, compile text = .ok script)
    (traced : callable.Traced library sites) (inside : callable.origin.path ≠ []) :
    ∃ routine, Known library callable routine := by
  rcases traced with ⟨script, found, located⟩
  rcases compiles script (List.mem_of_getElem? found) with ⟨text, compiled⟩
  rcases located.written compiled inside with ⟨name, parameters, body, stops, placed, writes⟩
  rcases Statement.implements_of_writesFunction (body.found placed) writes with
    ⟨implements, _, nameEq, arityEq, _⟩
  exact ⟨⟨name, parameters, body, ⟨callable.origin.run, sites⟩⟩, rfl, ⟨script, found, located⟩,
    nameEq, arityEq, placed, ⟨_, implements⟩⟩

theorem Value.exists_meaning
    (compiles : ∀ script ∈ library, ∃ text, compile text = .ok script)
    (declared : value.Obeys (Callable.Declared library)) :
    ∃ meaning, Matches library value meaning := by
  cases value with
  | nil => exact ⟨_, .nil⟩
  | bool truth => exact ⟨_, .bool truth⟩
  | number amount => exact ⟨_, .number amount⟩
  | string text => exact ⟨_, .string text⟩
  | function callable =>
    rcases declared callable rfl with ⟨inside, sites, traced⟩
    rcases traced.exists_known compiles inside with ⟨routine, known⟩
    exact ⟨_, .function known⟩

theorem compile_of_mem_loadedScripts (loaded : script ∈ loadedScripts texts) :
    ∃ text ∈ texts, compile text = .ok script := by
  rcases List.mem_filterMap.mp loaded with ⟨text, present, compiled⟩
  refine ⟨text, present, ?_⟩
  cases outcome : compile text with
  | ok found =>
    rw [outcome] at compiled
    cases compiled
    rfl
  | error error =>
    rw [outcome] at compiled
    cases compiled

theorem Session.exists_meanings {sink : Sink} (session : Session config sink texts machine) :
    ∃ meanings, GlobalsMatch (loadedScripts texts) machine.globals meanings := by
  have each : ∀ value : Value, ∃ meaning, value.Obeys (Callable.Declared (loadedScripts texts)) →
      Matches (loadedScripts texts) value meaning := by
    intro value
    by_cases declared : value.Obeys (Callable.Declared (loadedScripts texts))
    · have compiles : ∀ script ∈ loadedScripts texts, ∃ text, compile text = .ok script :=
        fun _ loaded => (compile_of_mem_loadedScripts loaded).imp fun _ => And.right
      rcases Value.exists_meaning compiles declared with ⟨meaning, agree⟩
      exact ⟨meaning, fun _ => agree⟩
    · exact ⟨.nil, fun impossible => absurd impossible declared⟩
  rcases Classical.skolem.mp each with ⟨meaningOf, agree⟩
  refine ⟨machine.globals.map fun _ value => meaningOf value, ?_⟩
  intro name
  rw [Std.TreeMap.getElem?_map]
  cases known : machine.globals[name]? with
  | none => exact .none
  | some value => exact .some (agree value (session.records.globals name value known))

end StackScript
