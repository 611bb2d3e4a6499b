import StackScript.Proofs.Simulation.Expression

/-!
# The code of statements

The code of a statement follows what the statement does. Where the machine is afterwards depends
on how the statement ends: behind its code, at one of the two places of the loop around it, or back
in the caller. A jump out of a scope gives up the slots of that scope before it jumps, the
evaluation leaves the scope later; until then only the slots below the loop are compared.
-/

namespace StackScript

open Machine (Follows)
open Reference

/-- Whether a layout tells what the scopes of a call are, as far as a statement needs it. -/
structure Layout.Suits (layout : Layout) (statement : Statement) (shape : List (List String)) :
    Prop where
  names_eq : shape.flatten = layout.names
  inside : shape ≠ []
  declares : statement.declared ≠ [] → (layout.isOutermost = true ↔ shape.length ≤ 1)
  loop_le : ∀ loop, layout.loop = some loop → loop.height ≤ layout.names.length

theorem deepen_binds {layout : Layout} {statement : Statement} {shape : List (List String)}
    (undeclared : statement.declared = []) :
    deepen (layout.binds statement) shape = shape := by
  simp [Layout.binds, undeclared]

structure Activation.Runs (history : History) (call : Activation) (kind : DraftKind)
    (home : Origin) : Prop where
  run_eq : call.callee.origin.run = home.run
  located : ∃ script, history.library[call.callee.origin.run]? = some script ∧
    script.Located call.callee.origin.path home.path call.callee.function
  called : kind = .function → call.callers ≠ #[]

namespace Activation

/-- What a call leaves. -/
def ended (call : Activation) (globals : Globals) (sink : Sink) : Machine :=
  ⟨call.config, call.below, call.callers, globals, sink, call.runs⟩

/-- What a call leaves, with its value. -/
def returned (call : Activation) (value : Value) (globals : Globals) (sink : Sink) : Machine :=
  { call.ended globals sink with stack := call.below.push value }

/-- Whether a call stands at an offset. -/
def Stands (history : History) (call : Activation) (kind : DraftKind)
    (shape : List (List String)) (ip : Nat) (state : State) (machine : Machine) : Prop :=
  ∃ store, machine = call.machine ip #[] store ∧ store.Mirrors history kind shape state

/-- Where a jump leaves a round. -/
def Left (history : History) (call : Activation) (kind : DraftKind) (shape : List (List String))
    (declared : List String) (height target : Nat) (state : State) (machine : Machine) : Prop :=
  ∃ extra store, machine = call.machine target #[] store ∧
    store.Shows history kind height state ∧ state.shape = deepen extra shape ∧
    (declared = [] → extra = [])

/-- Whether a value was returned. -/
def Back (history : History) (call : Activation) (kind : DraftKind) (meaning : Meaning)
    (state : State) (machine : Machine) : Prop :=
  kind = .function ∧ ∃ value globals sink, machine = call.returned value globals sink ∧
    Matches history.library value meaning ∧ Reports history globals sink state

/-- Where a machine is behind a statement. -/
def Reached (history : History) (call : Activation) (layout : Layout) (statement : Statement)
    (shape : List (List String)) (stop : Nat) : Flow → State → Machine → Prop
  | .normal, state, machine =>
    call.Stands history layout.kind (deepen (layout.binds statement) shape) stop state machine
  | .broke, state, machine =>
    ∃ loop, layout.loop = some loop ∧
      call.Left history layout.kind shape statement.declared loop.height loop.exit state machine
  | .continued, state, machine =>
    ∃ loop, layout.loop = some loop ∧
      call.Left history layout.kind shape statement.declared loop.height loop.start state machine
  | .returned meaning, state, machine => call.Back history layout.kind meaning state machine

end Activation

/-- Whether the code follows the statement. -/
def Statement.Simulated (history : History) (invoke : Meaning → List Meaning → Eval Meaning)
    (rounds : Nat) (statement : Statement) : Prop :=
  ∀ {call : Activation} {layout : Layout} {shape : List (List String)} {start stop : Nat}
    {marks : List (Nat × Nat)} {home : Origin} {store : Store} {state : State},
    statement.CodeAt call.chunk layout start stop marks →
    (layout.kind = .script → statement.Named) → layout.Suits statement shape →
    call.Runs history layout.kind home → store.Mirrors history layout.kind shape state →
    (call.machine start #[] store).Follows history
      (call.Reached history layout statement shape stop)
      (statement.exec invoke rounds home layout.functions state)

variable {history : History} {call : Activation} {layout : Layout} {kind : DraftKind}
  {shape : List (List String)} {ip start stop : Nat} {temps : Array Value} {store : Store}
  {state : State} {home : Origin} {name : String} {value : Value} {meaning : Meaning}
  {invoke : Meaning → List Meaning → Eval Meaning} {rounds : Nat}

namespace Activation

variable {α : Type} {post : α → State → Machine → Prop} {result : EStateM.Result Stop State α}

/-! ## Slots -/

theorem machine_push (call : Activation) (ip : Nat) (store : Store) (value : Value) :
    call.machine ip (#[].push value) store =
      call.machine ip #[] { store with slots := store.slots.push value } := by
  simp [machine]

theorem follows_pops {count : Nat} (pops : Statement.PopsAt call.chunk count start stop)
    (enough : count ≤ store.slots.size)
    (onward : (call.machine stop #[] (store.cut (store.slots.size - count))).Follows history
      post result) :
    (call.machine start #[] store).Follows history post result := by
  induction count generalizing start store with
  | zero =>
    cases (pops : stop = start)
    simpa [Store.cut] using onward
  | succ count ih =>
    rcases pops with ⟨found, others⟩
    rcases store with ⟨slots, globals, sink⟩
    have positive : slots.size ≠ 0 := Nat.ne_of_gt (Nat.lt_of_lt_of_le (Nat.succ_pos _) enough)
    rcases Array.eq_push_of_size_ne_zero positive with ⟨lower, top, rfl⟩
    simp only [Array.size_push] at enough onward
    rw [← machine_push call start ⟨lower, globals, sink⟩ top]
    apply follows_pop found
    apply ih others
    · exact Nat.le_of_succ_le_succ enough
    · have cutEq : Store.cut ⟨lower.push top, globals, sink⟩ (lower.size + 1 - (count + 1)) =
          Store.cut ⟨lower, globals, sink⟩ (lower.size - count) := by
        simp only [Store.cut, Nat.add_sub_add_right, Store.mk.injEq, and_true]
        apply Array.toList_inj.mp
        simp
      rw [← cutEq]
      exact onward

theorem step_ret (found : call.chunk.Has ip .ret) :
    Exec.step (call.machine ip (temps.push value) store) =
      if call.callers.isEmpty then .ok (some value) (call.ended store.globals store.sink)
      else Exec.put value (call.ended store.globals store.sink) := by
  have below : (call.machine (ip + 1) temps store).stack.shrink call.below.size = call.below := by
    apply Array.toList_inj.mp
    simp [machine]
  rw [step_eq found]
  refine (Exec.execute_ret (innermost (ip + 1) _ _) (stack_push _ _ _ _)).trans ?_
  simp only [below]
  simp [machine, ended]

theorem follows_ret (found : call.chunk.Has ip .ret) (called : call.callers ≠ #[])
    (onward : (call.returned value store.globals store.sink).Follows history post result) :
    (call.machine ip (temps.push value) store).Follows history post result := by
  have stepped : Exec.step (call.machine ip (temps.push value) store) = _ := step_ret found
  rw [if_neg (by simpa using called)] at stepped
  apply Follows.ofPut stepped rfl
  · simp only [machine, ended, Array.size_append]
    omega
  · exact onward

/-! ## Declarations -/

theorem follows_initial {initial : Option Expression} (invokes : Invokes history invoke)
    (code : Statement.InitialAt call.chunk shape.flatten initial start stop)
    (named : kind = .script → ∀ value ∈ initial, value.Named)
    (mirrors : store.Mirrors history kind shape state) :
    (call.machine start temps store).Follows history
      (call.Valued history kind shape stop temps)
      (Statement.evalOr invoke .nil initial state) := by
  cases initial with
  | some expression =>
    exact expression.simulated invokes code (fun isScript => named isScript _ rfl) mirrors
  | none =>
    rcases code with ⟨found, rfl⟩
    have loads : call.chunk.Has start (KeywordLiteral.nil.opcode.instruction 0) := found
    apply follows_literal loads
    apply Follows.done
    exact ⟨.nil, store, rfl, .nil, mirrors⟩

theorem follows_declare {statement : Statement} (declares : statement.declared = [name])
    (code : Statement.DefinesAt call.chunk layout name ip stop)
    (suits : layout.Suits statement shape)
    (mirrors : store.Mirrors history layout.kind shape state)
    (agree : Matches history.library value meaning) :
    (call.machine ip (#[].push value) store).Follows history
      (fun _ => call.Reached history layout statement shape stop .normal)
      (declare name meaning state) := by
  have level := suits.declares (by simp [declares])
  rw [Statement.DefinesAt] at code
  split at code
  case isTrue outermost =>
    rcases code with ⟨place, found, held, rfl⟩
    rcases mirrors.declare_global (level.mp outermost) name agree with
      ⟨after, declared, mirrorsAfter⟩
    rw [declared]
    apply follows_defineGlobal found held
    apply Follows.done
    refine ⟨_, rfl, ?_⟩
    simpa [Layout.binds, outermost] using mirrorsAfter
  case isFalse inScope =>
    have inside : 1 < shape.length := Nat.lt_of_not_le fun few => inScope (level.mpr few)
    rcases mirrors.declare_local inside name agree with ⟨after, declared, mirrorsAfter⟩
    subst code
    rw [declared, machine_push]
    apply Follows.done
    refine ⟨_, rfl, ?_⟩
    simpa [Layout.binds, inScope, declares] using mirrorsAfter

theorem Runs.known {place : Nat} {function : Function} {parameters : List String}
    {body : Statement} {marks : List (Nat × Nat)} (runs : call.Runs history kind home)
    (held : call.chunk.constants[place]? = some (.function function))
    (nameEq : function.name = name) (arityEq : function.arity = parameters.length)
    (placed : body.Placed)
    (implements : function.chunk.Implements (.function name parameters) body marks) :
    Matches history.library (call.callee.load place (.function function))
      (.function ⟨name, parameters, body, ⟨home.run, call.chunk.rank place :: home.path⟩⟩) := by
  rcases runs.located with ⟨script, loaded, located⟩
  exact .function ⟨runs.run_eq, ⟨script, loaded, located.inside held⟩, nameEq, arityEq, placed,
    ⟨marks, implements⟩⟩

end Activation

namespace Statement

theorem expression_simulated (invokes : Invokes history invoke) (given : Expression) :
    (Statement.expression given).Simulated history invoke rounds := by
  intro call layout shape start stop marks home store state code named suits runs mirrors
  rcases code with ⟨valued, codeValue, pops, rfl, _⟩
  rw [← suits.names_eq] at codeValue
  rw [Statement.exec]
  apply Follows.bind (given.simulated invokes codeValue named mirrors)
  rintro meaning after _ ⟨value, store, rfl, agree, mirrors⟩
  apply Activation.follows_pop pops
  apply Follows.done
  refine ⟨store, rfl, ?_⟩
  rwa [deepen_binds rfl]

theorem print_simulated (invokes : Invokes history invoke) (given : Expression) :
    (Statement.print given).Simulated history invoke rounds := by
  intro call layout shape start stop marks home store state code named suits runs mirrors
  rcases code with ⟨valued, codeValue, prints, rfl, _⟩
  rw [← suits.names_eq] at codeValue
  rw [Statement.exec]
  apply Follows.bind (given.simulated invokes codeValue named mirrors)
  rintro meaning after _ ⟨value, store, rfl, agree, mirrors⟩
  have reports := mirrors.shows.reports
  apply Activation.follows_print prints reports.unlimited
  apply Follows.done
  refine ⟨_, rfl, ?_⟩
  apply Store.Mirrors.of_forall_slots
  · rw [deepen_binds rfl]
    exact mirrors.shape_eq
  · exact mirrors.forall_slots
  · refine { reports with written := ?_ }
    simp [reports.written, agree.display_eq, ByteArray.append_assoc]

theorem varDeclaration_simulated (invokes : Invokes history invoke) (name : String)
    (initial : Option Expression) :
    (Statement.varDeclaration name initial).Simulated history invoke rounds := by
  intro call layout shape start stop marks home store state code named suits runs mirrors
  rcases code with ⟨valued, codeInitial, defines, _⟩
  rw [← suits.names_eq] at codeInitial
  rw [Statement.exec]
  apply Follows.bind (Activation.follows_initial invokes codeInitial named mirrors)
  rintro meaning after _ ⟨value, store, rfl, agree, mirrors⟩
  apply Follows.bind (Activation.follows_declare rfl defines suits mirrors agree)
  intro _ after machine reached
  exact Follows.done reached

theorem funDeclaration_simulated (name : String) (parameters : List String) {body : Statement}
    (placed : body.Placed) :
    (Statement.funDeclaration name parameters body).Simulated history invoke rounds := by
  intro call layout shape start stop marks home store state code named suits runs mirrors
  rcases code with ⟨place, function, done, marksInside, found, held, rankEq, nameEq, arityEq,
    codeBody, finishes, defines, _⟩
  have agree := runs.known held nameEq arityEq placed ⟨done, codeBody, finishes⟩
  rw [rankEq] at agree
  rw [Statement.exec]
  apply Activation.follows_constant found held
  apply Follows.bind (Activation.follows_declare rfl defines suits mirrors agree)
  intro _ after machine reached
  exact Follows.done reached

end Statement

end StackScript
