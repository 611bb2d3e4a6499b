import StackScript.Proofs.Heights
import StackScript.Proofs.Placement.Function
import StackScript.Proofs.Reading.Program

/-!
# Compiled functions

A script and the functions in the pools below it are all the code of a tree, followed by a return of
nil. So each of them has heights: the number of slots in use at every instruction.
-/

namespace StackScript

variable {function holder script : Function}

/-- Whether a function is a script or stands in a pool of constants somewhere below it. -/
inductive Function.Within (script : Function) : Function → Prop where
  | self : script.Within script
  | pooled {holder function : Function} {place : Nat} (inside : script.Within holder)
      (held : holder.chunk.constants[place]? = some (.function function)) :
      script.Within function

/-- The function at a place of the pool. -/
def Function.pooled? (holder : Function) (place : Nat) : Option Function :=
  holder.chunk.constants[place]?.bind Datum.function?

theorem Function.held_of_pooled? {place : Nat} (found : holder.pooled? place = some function) :
    holder.chunk.constants[place]? = some (.function function) := by
  rcases Option.bind_eq_some_iff.mp found with ⟨constant, held, isFunction⟩
  cases constant with
  | function inner =>
    cases isFunction
    exact held
  | _ => cases isFunction

theorem Function.Within.pooled? {place : Nat} (inside : script.Within holder)
    (found : holder.pooled? place = some function) : script.Within function :=
  inside.pooled (held_of_pooled? found)

/-- Whether a function belongs to a script that a program text compiles to. -/
def Function.Compiled (function : Function) : Prop :=
  ∃ text script, compile text = .ok script ∧ script.Within function

/-- Whether a function is the code of a tree, with `stops` between its statements. -/
structure Function.Laid (function : Function) (layout : Layout) (body : Statement)
    (stops : List Draft) : Prop where
  placed : body.Placed
  named : layout.kind = .script → body.Named
  noLoop : layout.loop = none
  secure : layout.Secure
  length_eq : layout.names.length = function.arity + 1
  arity_le : function.arity ≤ 255
  implements : function.chunk.Implements layout body (stops.map Draft.mark)
  finished : function.chunk.Finished

namespace Function

variable {text : String} {script function holder : Function} {stops : List Draft}

theorem laid_of_writesFunction {name : String} {parameters : List String} {body : Statement}
    (placed : body.Placed) (writes : Statement.WritesFunction name parameters body function stops) :
    function.Laid (.function name parameters) body stops := by
  rcases Statement.implements_of_writesFunction (body.found placed) writes with
    ⟨implements, finished, _, arityEq, few⟩
  refine ⟨placed, fun isScript => ?_, rfl, ⟨⟨?_, fun isScript => ?_⟩, ?_⟩, ?_, ?_, implements,
    finished⟩
  · cases isScript
  · simp [Layout.function]
  · cases isScript
  · intro loop inLoop
    cases inLoop
  · simp [Layout.function, arityEq]
  · omega

theorem laid_of_writesScript {program : Statement} (derives : Grammar.Program (tokens text) program)
    (writes : program.WritesScript script stops) : script.Laid .script program stops := by
  rcases tokens_end text with ⟨front, ending, tokensEq, _, characters⟩
  rcases derives with ⟨_, tokens, last, tokensEq', atEnd, phrase⟩
  rw [tokensEq] at tokensEq'
  have sameFront : front = tokens := (List.append_inj' tokensEq' rfl).1
  subst sameFront
  have named := phrase.named fun token present => (characters token present).2
  rcases Statement.implements_of_writesScript phrase.placed.1 writes with
    ⟨implements, finished, _, arityEq⟩
  refine ⟨phrase.placed.1, fun _ => named, rfl, ⟨⟨?_, fun _ => ⟨[], rfl⟩⟩, ?_⟩, ?_, ?_, implements,
    finished⟩
  · simp [Layout.script]
  · intro loop inLoop
    cases inLoop
  · rw [arityEq]
    rfl
  · omega

/-- A program text that compiles is the tree of its tokens, and its script is the code of it. -/
theorem laid_of_compile (compiled : compile text = .ok script) :
    ∃ program stops, Grammar.Program (tokens text) program ∧
      program.WritesScript script stops ∧ script.Laid .script program stops := by
  rcases compile_read compiled with ⟨program, derives, stops, writes⟩
  exact ⟨program, stops, derives, writes, laid_of_writesScript derives writes⟩

theorem Written.pooled {place : Nat} (written : holder.Written)
    (held : holder.chunk.constants[place]? = some (.function function)) : function.Written := by
  rcases written with ⟨name, parameters, body, stops, placed, writes⟩
  exact (laid_of_writesFunction placed writes).finished.functions_written place function held

theorem written_of_within (compiled : compile text = .ok script)
    (inside : script.Within function) : function = script ∨ function.Written := by
  induction inside with
  | self => exact Or.inl rfl
  | pooled _ held ih =>
    right
    rcases ih with rfl | written
    · rcases laid_of_compile compiled with ⟨program, stops, _, _, laid⟩
      exact laid.finished.functions_written _ _ held
    · exact written.pooled held

theorem Compiled.laid (compiled : function.Compiled) :
    ∃ layout body stops, function.Laid layout body stops := by
  rcases compiled with ⟨text, script, compiles, inside⟩
  rcases written_of_within compiles inside with rfl |
    ⟨name, parameters, body, stops, placed, writes⟩
  · rcases laid_of_compile compiles with ⟨program, stops, _, _, laid⟩
    exact ⟨_, _, _, laid⟩
  · exact ⟨_, _, _, laid_of_writesFunction placed writes⟩

theorem Compiled.pooled {place : Nat} (compiled : holder.Compiled)
    (held : holder.chunk.constants[place]? = some (.function function)) : function.Compiled := by
  rcases compiled with ⟨text, script, compiles, inside⟩
  exact ⟨text, script, compiles, inside.pooled held⟩

theorem compiled_of_compile (compiled : compile text = .ok script) : script.Compiled :=
  ⟨text, script, compiled, .self⟩

end Function

/-! ## Heights of a whole function -/

/-- The heights of a chunk that starts with `entry` slots in use and ends with a return of nil. -/
structure Chunk.Typing (chunk : Chunk Constant) (entry : Nat) where
  kind : DraftKind
  points : List (Nat × Nat)
  done : Nat
  final : Nat
  segment : chunk.Segment kind (0, entry) (done, final) points []
  positive : 0 < final
  finishes : chunk.HasAll [.loadNil, .ret] done chunk.size

namespace Walk

variable {code : Array UInt8} {start stop : Nat} {offsets others : List Nat}

theorem unique (first : Walk code start offsets code.size)
    (second : Walk code start others code.size) : offsets = others := by
  have behind : ∀ {instruction : Instruction},
      Instruction.decode code code.size ≠ .found instruction := by
    intro instruction
    simp [Instruction.decode]
  generalize stopEq : code.size = stop at first second
  induction first generalizing others with
  | done =>
    subst stopEq
    cases second with
    | done => rfl
    | step reads _ => exact absurd reads behind
  | step reads onward ih =>
    subst stopEq
    cases second with
    | done => exact absurd reads behind
    | step readsToo onwardToo =>
      rw [reads] at readsToo
      cases readsToo
      rw [ih rfl onwardToo]

theorem nodup (walk : Walk code start offsets stop) : offsets.Nodup := by
  induction walk with
  | done => exact List.nodup_nil
  | step reads onward ih =>
    rename_i instruction
    refine List.nodup_cons.mpr ⟨?_, ih⟩
    intro again
    have further := (onward.lt_of_mem again).1
    have positive : 0 < instruction.size := Opcode.size_pos instruction.opcode
    omega

end Walk

namespace Chunk.Typing

variable {chunk : Chunk Constant} {entry height offset : Nat} {point : Nat × Nat}

/-- The points up to the final return. -/
def reach (typing : chunk.Typing entry) : List (Nat × Nat) :=
  typing.points ++ [(typing.done, typing.final)]

/-- All points of a function. -/
def all (typing : chunk.Typing entry) : List (Nat × Nat) :=
  typing.reach ++ [(typing.done + 1, typing.final + 1)]

theorem size_eq (typing : chunk.Typing entry) : chunk.size = typing.done + 2 :=
  typing.finishes.2.2

theorem walk (typing : chunk.Typing entry) :
    Walk chunk.code 0 (typing.all.map (·.1)) chunk.size := by
  have finish : Walk chunk.code typing.done [typing.done, typing.done + 1] chunk.size := by
    refine .step typing.finishes.1 (.step typing.finishes.2.1 ?_)
    rw [typing.size_eq]
    exact .done _
  simpa [all, reach] using typing.segment.walk.append finish

theorem starts_eq (typing : chunk.Typing entry) (finished : chunk.Finished) :
    chunk.starts.toList = typing.all.map (·.1) :=
  finished.cut.unique typing.walk

theorem enters (typing : chunk.Typing entry) : (0, entry) ∈ typing.reach :=
  typing.segment.entry

theorem reach_subset (typing : chunk.Typing entry) (present : point ∈ typing.reach) :
    point ∈ typing.all :=
  List.mem_append_left _ present

/-- The height at an offset. -/
def heightAt (typing : chunk.Typing entry) (offset : Nat) : Nat :=
  (typing.all.lookup offset).getD 0

theorem lookup_of_mem {points : List (Nat × Nat)} (distinct : (points.map (·.1)).Nodup)
    (present : (offset, height) ∈ points) : points.lookup offset = some height := by
  induction points with
  | nil => cases present
  | cons point rest ih =>
    simp only [List.map_cons, List.nodup_cons] at distinct
    rcases List.mem_cons.mp present with rfl | later
    · simp
    · have different : offset ≠ point.1 := by
        rintro rfl
        exact distinct.1 (List.mem_map.mpr ⟨_, later, rfl⟩)
      rw [List.lookup_cons, beq_eq_false_iff_ne.mpr different]
      exact ih distinct.2 later

theorem heightAt_eq (typing : chunk.Typing entry) (present : (offset, height) ∈ typing.all) :
    typing.heightAt offset = height := by
  rw [heightAt, lookup_of_mem typing.walk.nodup present]
  rfl

theorem flows (typing : chunk.Typing entry) (present : point ∈ typing.points) :
    ∃ instruction, chunk.Has point.1 instruction ∧
      instruction.Flows chunk typing.kind point typing.reach :=
  typing.segment.flows point present

section Instructions

variable {offset height : Nat} {instruction : Instruction}

theorem has_unique {first second : Instruction} (found : chunk.Has offset first)
    (foundToo : chunk.Has offset second) : first = second := by
  simp only [Chunk.Has] at found foundToo
  rw [found] at foundToo
  cases foundToo
  rfl

theorem reach_cases (typing : chunk.Typing entry) (found : chunk.Has offset instruction)
    (present : (offset, height) ∈ typing.reach) :
    instruction.Flows chunk typing.kind (offset, height) typing.reach ∨
      (instruction = .loadNil ∧ offset = typing.done ∧ height = typing.final) := by
  rcases List.mem_append.mp present with inBody | atEnd
  · rcases typing.flows inBody with ⟨same, foundSame, flows⟩
    rw [has_unique found foundSame]
    exact Or.inl flows
  · have pointEq := List.mem_singleton.mp atEnd
    simp only [Prod.mk.injEq] at pointEq
    refine Or.inr ⟨?_, pointEq⟩
    rw [pointEq.1] at found
    exact has_unique found typing.finishes.1

theorem eq_ret (typing : chunk.Typing entry) (found : chunk.Has offset instruction)
    (behind : offset = typing.done + 1) : instruction = .ret := by
  rw [behind] at found
  exact has_unique found typing.finishes.2.1

end Instructions

end Chunk.Typing

/-- A function that is the code of a tree has heights, which fit those between statements. -/
theorem Function.Laid.exists_typing {layout : Layout} {body : Statement} {stops : List Draft}
    (laid : function.Laid layout body stops) :
    ∃ typing : function.chunk.Typing (function.arity + 1), typing.kind = layout.kind ∧
      typing.final = (layout.after body).names.length ∧
      ∀ stop ∈ stops, stop.mark ∈ typing.reach := by
  rcases laid.implements with ⟨done, code, finishes⟩
  rcases body.hasHeights laid.placed code laid.secure laid.named with ⟨points, segment, marked⟩
  rw [laid.length_eq, Layout.exits, laid.noLoop] at segment
  refine ⟨⟨layout.kind, points, done, _, segment, (laid.secure.after body).length_pos, finishes⟩,
    rfl, rfl, ?_⟩
  intro stop present
  exact marked stop.mark (List.mem_map_of_mem present)

theorem Function.Compiled.exists_typing (compiled : function.Compiled) :
    Nonempty (function.chunk.Typing (function.arity + 1)) := by
  rcases compiled.laid with ⟨layout, body, stops, laid⟩
  rcases laid.exists_typing with ⟨typing, _⟩
  exact ⟨typing⟩

theorem compile_of_toOption {text : String} (compiled : (compile text).toOption = some script) :
    compile text = .ok script := by
  cases result : compile text with
  | error error =>
    rw [result] at compiled
    cases compiled
  | ok other =>
    rw [result] at compiled
    cases compiled
    rfl

/-- A function in a function, with a loop that is left from inside of a block. -/
def nestedText : String :=
  "fun f(a) { for (var i = a; i; ) { { var b; if (a) break; else continue; } }
    fun g() { return f; } return g(); } print f(nil);"

theorem compile_nestedText :
    ∃ script outer inner, compile nestedText = .ok script ∧ script.Within outer ∧
      outer.Within inner ∧ script.Within inner ∧ outer.arity = 1 ∧ inner.arity = 0 := by
  have evaluated : (match compile nestedText with
      | .ok script =>
        ((script.pooled? 1).bind fun outer => (outer.pooled? 0).map fun inner =>
          (outer.arity, inner.arity))
      | .error _ => none) = some (1, 0) := by decide +kernel
  split at evaluated
  · next script compiled =>
    rcases Option.bind_eq_some_iff.mp evaluated with ⟨outer, foundOuter, rest⟩
    rcases Option.map_eq_some_iff.mp rest with ⟨inner, foundInner, arities⟩
    simp only [Prod.mk.injEq] at arities
    have insideOuter := Function.Within.self.pooled? foundOuter
    exact ⟨script, outer, inner, compiled, insideOuter, Function.Within.self.pooled? foundInner,
      insideOuter.pooled? foundInner, arities⟩
  · cases evaluated

end StackScript
