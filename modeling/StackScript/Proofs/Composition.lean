import StackScript.Proofs.Merging
import StackScript.Proofs.Provenance
import StackScript.Proofs.StackRoom

/-!
# Sessions as one program

Programs that are run one after the other do what the program that joins them does. While the
session is between two programs, the joint program is between the code of both.
-/

namespace StackScript

variable {same : Origin → Origin → Prop} {machine middle : Machine} {texts : List String}
  {config : Config} {sink : Sink} {front sources : List Source} {layout : Layout}
  {script whole : Function} {scripts : List Function}

namespace Machine

/-- Whether a machine stands at the code of the next program, as another one waits for it. -/
structure Awaits (same : Origin → Origin → Prop) (whole : Callable) (start : Nat)
    (idle right : Machine) : Prop where
  store : idle.SameStore same right
  calls_eq : right.calls = [⟨whole, start, 0⟩]
  size_eq : right.stack.size = 1
  room : right.HasRoom

namespace Awaits

variable {whole : Callable} {start steps : Nat} {idle right last : Machine} {source : Source}

variable (awaits : Awaits same whole start idle right)
include awaits

theorem stackSize_pos : 0 < idle.config.stackSize := by
  have room := awaits.room
  rw [HasRoom, awaits.size_eq, awaits.store.config_eq] at room
  exact room

theorem abreast (source : Source) :
    (idle.loaded source.script).Abreast same (source.track idle.runs whole start) right := by
  refine ⟨⟨awaits.store.config_eq, awaits.store.sink_eq, awaits.store.globals⟩, ⟨?_, ?_⟩, ?_⟩
  · rw [awaits.size_eq]
    rfl
  · intro place positive
    have behind : (idle.loaded source.script).stack.size ≤ place := positive
    have behindToo : right.stack.size ≤ place := by
      rw [awaits.size_eq]
      exact positive
    rw [Array.getElem?_eq_none behind, Array.getElem?_eq_none behindToo]
    exact .none
  · have starts : (source.track idle.runs whole start).Calls same _ _ := .program 0
    rw [awaits.calls_eq]
    simpa [calls, loaded, Source.track] using starts

theorem next {value : Value} (faithful : Faithful same) (settled : idle.Settled)
    (typing : source.script.chunk.Typing (source.script.arity + 1))
    (isScript : typing.kind = .script) (atBottom : typing.final = 1)
    (follows : ∀ point ∈ typing.points, (source.track idle.runs whole start).Follows same point.1)
    (ends : idle.interpret source.script steps = .finished (.ok value) last) :
    ∃ more reached, right.advance more = .running reached ∧
      Awaits same whole (typing.done + start) last reached := by
  have starts := settled.load source.compiled
  rw [Machine.interpret] at ends
  rw [load_eq, if_pos awaits.stackSize_pos] at starts ends
  have short : (idle.loaded source.script).Short typing := by
    intro frame alone
    have standing := (starts.1.innermost frame [] alone).1
    cases alone
    rcases standing.stands typing with inReach | ⟨ipEq, _, _⟩
    · exact inReach
    · cases ipEq
  rcases (awaits.abreast source).exists_seam typing faithful starts.1 starts.2 isScript short
    follows ends with ⟨more, reached, ran, seam⟩
  exact ⟨more, reached, ran, seam.store, seam.calls_eq, seam.size_eq.trans atBottom,
    awaits.room.advance ran⟩

theorem keepsPace (faithful : Faithful same) (settled : idle.Settled)
    (typing : source.script.chunk.Typing (source.script.arity + 1))
    (follows : ∀ point ∈ typing.all, (source.track idle.runs whole start).Follows same point.1)
    (steps : Nat) :
    Progress.Abreast same (source.track idle.runs whole start)
      (idle.interpret source.script steps) (right.advance steps) := by
  have starts := settled.load source.compiled
  rw [Machine.interpret]
  rw [load_eq, if_pos awaits.stackSize_pos] at starts ⊢
  exact (awaits.abreast source).advance faithful starts.1 starts.2 typing follows steps

end Awaits

/-- Whether the programs of texts run on a machine one after the other, without a fault. -/
inductive Completes : Machine → List String → Machine → Prop where
  | none (machine : Machine) : Completes machine [] machine
  | more {machine next last : Machine} {text : String} {texts : List String} {script : Function}
      {steps : Nat} {value : Value} (compiled : compile text = .ok script)
      (ends : machine.interpret script steps = .finished (.ok value) next)
      (others : Completes next texts last) : Completes machine (text :: texts) last

end Machine

theorem Source.exists_of_completes (completes : machine.Completes texts middle) :
    ∃ sources : List Source, sources.map Source.text = texts := by
  induction completes with
  | none => exact ⟨[], rfl⟩
  | more compiled _ _ ih =>
    rcases Source.exists_of_compile compiled with ⟨source, textEq, _⟩
    rcases ih with ⟨sources, textsEq⟩
    exact ⟨source :: sources, by rw [List.map_cons, textEq, textsEq]⟩

theorem Session.runs_ran {last : Machine} {text : String} {steps : Nat}
    {outcome : Except Failure Value} (session : Session config sink texts machine)
    (compiled : compile text = .ok script)
    (ends : machine.interpret script steps = .finished outcome last) :
    last.runs = machine.runs + 1 := by
  rw [(session.ran compiled ends).records.runs_eq, session.records.runs_eq, loadedScripts_append,
    compiled]
  simp [Except.toOption]

theorem Statement.joinAll_cons (program : Statement) {programs : List Statement}
    (others : programs ≠ []) : joinAll (program :: programs) = program.join (joinAll programs) := by
  cases programs with
  | nil => exact absurd rfl others
  | cons => rfl

theorem Site.Locates.after_script {start before : Nat}
    (locates : Site.script.Locates layout start 0 before 0) (program : Statement) (next : Nat) :
    Site.script.Locates (layout.after program) next 0 (before + program.functionCount) 0 := by
  have loops := locates.loops
  refine ⟨locates.toMeasures.after program, ?_, ?_⟩
  · have functionsEq := locates.functions_eq
    simp only [Layout.after]
    omega
  · change Option.Rel _ layout.loop none
    generalize layout.loop = loop at loops
    cases loops
    exact .none

/-- Where the code of a program starts in the joint program, with the programs in front of it. -/
structure Source.Stands (source : Source) (whole : Function) (front : List Source)
    (start stop : Nat) : Prop where
  code : ∃ layout marks, source.program.CodeAt whole.chunk layout start stop marks ∧
    Site.script.Locates layout start 0
      ((front.map Source.script).flatMap (·.chunk.functions)).length 0

theorem Machine.Completes.exists_awaits {earlier : List String} {idle right : Machine}
    {final : Source} {runs start stop : Nat} {marks : List (Nat × Nat)}
    (session : Session config sink earlier idle)
    (completes : idle.Completes (sources.map Source.text) middle) (pools : whole.Pools scripts)
    (split : scripts = (front ++ (sources ++ [final])).map Source.script)
    (runsEq : idle.runs = runs + front.length)
    (awaits : idle.Awaits (Merged runs scripts whole) (.script runs whole) start right)
    (code : (Statement.joinAll ((sources ++ [final]).map Source.program)).CodeAt whole.chunk layout
      start stop marks) (locates : Site.script.Locates layout start 0
      ((front.map Source.script).flatMap (·.chunk.functions)).length 0) :
    ∃ more reached place, right.advance more = .running reached ∧ middle.Settled ∧
      middle.runs = runs + (front ++ sources).length ∧
      middle.Awaits (Merged runs scripts whole) (.script runs whole) place reached ∧
      final.Stands whole (front ++ sources) place stop := by
  induction sources generalizing front idle right start layout marks earlier with
  | nil =>
    cases completes
    rw [List.append_nil]
    exact ⟨0, right, start, rfl, session.settled, runsEq, awaits, layout, marks, code, locates⟩
  | cons source sources ih =>
    cases completes with
    | more compiled ends others =>
      have scriptEq := compiled.symm.trans source.compiled
      cases scriptEq
      rw [List.cons_append, List.map_cons, Statement.joinAll_cons _ (by simp)] at code
      rcases code.of_join with ⟨between, marksFirst, marksRest, codeFirst, codeRest⟩
      rcases source.accepted.laid source.compiled with ⟨_, laid⟩
      rcases laid.exists_typing with ⟨typing, kindEq, finalEq, _⟩
      have splitHere : scripts = front.map Source.script ++
          source.script :: (sources ++ [final]).map Source.script := by
        rw [split, List.map_append, List.cons_append, List.map_cons]
      rcases Source.follows pools splitHere runs typing codeFirst locates with ⟨betweenEq, follows⟩
      rw [List.length_map, ← runsEq] at follows
      rcases awaits.next (Merged.faithful _ _ _) session.settled typing kindEq finalEq follows
        ends with ⟨more, reached, ran, awaitsNext⟩
      rw [← betweenEq] at awaitsNext
      have locatesNext := locates.after_script source.program between
      rw [← source.length_functions, ← List.length_append] at locatesNext
      have functionsEq : (front.map Source.script).flatMap (·.chunk.functions) ++
          source.script.chunk.functions =
          ((front ++ [source]).map Source.script).flatMap (·.chunk.functions) := by
        simp
      rw [functionsEq] at locatesNext
      have runsNext := session.runs_ran source.compiled ends
      rcases ih (session.ran source.compiled ends) others (by simp [split])
        (by rw [runsNext, runsEq, List.length_append, List.length_singleton, Nat.add_assoc])
        awaitsNext codeRest locatesNext with
        ⟨further, arrived, place, ranFurther, settled, runsLast, awaitsLast, stands⟩
      rw [List.append_assoc, List.singleton_append] at runsLast stands
      exact ⟨more + further, arrived, place, (Machine.advance_add ran further).trans ranFurther,
        settled, runsLast, awaitsLast, stands⟩

theorem Source.follows_all {source : Source} {start stop : Nat} (pools : whole.Pools scripts)
    (split : scripts = (front ++ [source]).map Source.script) (runs : Nat)
    (typing : source.script.chunk.Typing (source.script.arity + 1))
    (stands : source.Stands whole front start stop)
    (returns : whole.chunk.HasAll [.loadNil, .ret] stop whole.chunk.size) :
    ∀ point ∈ typing.all, (source.track (runs + front.length) (.script runs whole) start).Follows
      (Merged runs scripts whole) point.1 := by
  rcases stands.code with ⟨layout, marks, code, locates⟩
  have splitHere : scripts = front.map Source.script ++ source.script :: [] := by
    rw [split, List.map_append]
    rfl
  rcases Source.follows pools splitHere runs typing code locates with ⟨rfl, follows⟩
  rw [List.length_map] at follows
  intro point present
  rcases List.mem_append.mp present with inReach | atReturn
  · rcases List.mem_append.mp inReach with inBody | atEnd
    · exact follows point inBody
    · intro instruction found
      rw [List.mem_singleton.mp atEnd] at found ⊢
      cases Chunk.Typing.has_unique found typing.finishes.1
      exact ⟨.loadNil, returns.1, .same rfl⟩
  · intro instruction found
    rw [List.mem_singleton.mp atReturn] at found ⊢
    cases Chunk.Typing.has_unique found typing.finishes.2.1
    refine ⟨.ret, ?_, .same rfl⟩
    have second := returns.2.1
    rw [Nat.add_right_comm] at second
    exact second

theorem Source.accepted_all (some : sources ≠ []) :
    Accepted ("\n".intercalate (sources.map Source.text))
      (.joinAll (sources.map Source.program)) := by
  cases sources with
  | nil => exact absurd rfl some
  | cons source sources =>
    apply Accepted.intercalate
    rw [← List.map_cons, ← List.map_cons, List.forall₂_map_left_iff, List.forall₂_map_right_iff,
      List.forall₂_same]
    exact fun source _ => source.accepted

/-! ## Results -/

namespace Progress

def succeeds : Progress → Bool
  | finished (.ok _) _ => true
  | _ => false

theorem exists_value {progress : Progress} (succeeds : progress.succeeds = true) :
    ∃ value last, progress = .finished (.ok value) last := by
  cases progress with
  | running machine => cases succeeds
  | finished outcome last =>
    cases outcome with
    | ok value => exact ⟨value, last, rfl⟩
    | error failure => cases succeeds

end Progress

/-- Whether runs end with nil, or with the same status. -/
def EndsAlike : Except Failure Value → Except Failure Value → Prop
  | .ok value, .ok other => value = .nil ∧ other = .nil
  | .error failure, .error other => failure.fault.status = other.fault.status
  | _, _ => False

/-- Whether runs have come to the same output and global variables, and go on or end alike. -/
def Progress.Agrees (same : Origin → Origin → Prop) : Progress → Progress → Prop
  | .running left, .running right => left.SameStore same right
  | .finished outcome left, .finished other right =>
    EndsAlike outcome other ∧ left.SameStore same right
  | _, _ => False

theorem Progress.Abreast.agrees {track : Track} {progress other : Progress}
    (abreast : Progress.Abreast same track progress other) (sound : progress.Sound script) :
    Progress.Agrees same progress other := by
  cases progress with
  | running left =>
    cases other with
    | running right => exact abreast.toSameStore
    | finished => exact abreast.elim
  | finished outcome left =>
    cases other with
    | running => exact abreast.elim
    | finished outcomeToo right =>
      refine ⟨?_, abreast.2⟩
      have outcomes := abreast.1
      cases outcome with
      | ok value =>
        cases outcomeToo with
        | ok valueToo =>
          rcases sound with ⟨rfl, _⟩
          cases outcomes
          exact ⟨rfl, rfl⟩
        | error => exact outcomes.elim
      | error failure =>
        cases outcomeToo with
        | ok => exact outcomes.elim
        | error failureToo => exact congrArg Fault.status outcomes

theorem Session.sameStore (session : Session config sink texts machine) (scripts : List Function)
    (whole : Function) : machine.SameStore (Merged machine.runs scripts whole) machine := by
  refine ⟨rfl, rfl, ?_⟩
  intro name
  cases known : machine.globals[name]? with
  | none => exact .none
  | some value =>
    refine .some ?_
    have declared := session.records.globals name value known
    cases value with
    | function callable =>
      rcases declared callable rfl with ⟨_, _, _, found, _⟩
      have early := (List.getElem?_eq_some_iff.mp found).1
      rw [← session.records.runs_eq] at early
      exact .function ⟨.refl _, .older early⟩
    | _ => constructor

theorem Machine.Completes.eq_of_noRoom (completes : machine.Completes texts middle)
    (noRoom : ¬0 < machine.config.stackSize) : texts = [] ∧ middle = machine := by
  cases completes with
  | none => exact ⟨rfl, rfl⟩
  | more _ ends _ =>
    rw [Machine.interpret, Machine.load_eq, if_neg noRoom] at ends
    cases ends

/--
A session is one program. If texts compile and run one after the other without a fault, up to the
last one, then the text that has line ends between them is refused only because of its number of
constants. Otherwise its run keeps pace with that of the last text: it has written the same, its
global variables hold the same but for which objects new functions are, and it ends in the same way.
-/
theorem interpret_intercalate {config : Config} {sink : Sink} {earlier texts : List String}
    {machine middle : Machine} {text : String} {script : Function}
    (session : Session config sink earlier machine) (completes : machine.Completes texts middle)
    (compiled : compile text = .ok script) :
    (∀ error, compile ("\n".intercalate (texts ++ [text])) = .error error →
      error.kind = .tooManyConstants) ∧
    ∀ whole, compile ("\n".intercalate (texts ++ [text])) = .ok whole →
      ∃ same : Origin → Origin → Prop,
        (∀ {first second other another : Origin}, same first other → same second another →
          (first = second ↔ other = another)) ∧
        (∀ origin : Origin, origin.run < machine.runs → same origin origin) ∧
        ∃ lead, ∀ steps, Progress.Agrees same (middle.interpret script steps)
          (machine.interpret whole (lead + steps)) := by
  rcases Source.exists_of_completes completes with ⟨sources, rfl⟩
  rcases Source.exists_of_compile compiled with ⟨final, rfl, rfl⟩
  have textsEq : sources.map Source.text ++ [final.text] =
      (sources ++ [final]).map Source.text := by simp
  have accepted := Source.accepted_all (show sources ++ [final] ≠ [] by simp)
  rw [textsEq]
  refine ⟨fun error refused => accepted.error_kind refused, ?_⟩
  intro whole compiledWhole
  rcases accepted.laid compiledWhole with ⟨_, laid⟩
  rcases laid.implements with ⟨stop, code, returns⟩
  have pools := Source.pools accepted compiledWhole
  have store := session.sameStore ((sources ++ [final]).map Source.script) whole
  refine ⟨Merged machine.runs ((sources ++ [final]).map Source.script) whole,
    (Merged.faithful _ _ _).one_to_one, fun origin early => .older early, ?_⟩
  by_cases room : 0 < machine.config.stackSize
  · have awaits : machine.Awaits
        (Merged machine.runs ((sources ++ [final]).map Source.script) whole)
        (.script machine.runs whole) 0 (machine.loaded whole) :=
      ⟨⟨rfl, rfl, store.globals⟩, rfl, rfl, room⟩
    have locates : Site.script.Locates .script 0 0
        ((([] : List Source).map Source.script).flatMap (·.chunk.functions)).length 0 := .script
    rcases completes.exists_awaits session pools rfl rfl awaits code locates with
      ⟨more, reached, place, ran, settled, runsEq, awaitsLast, stands⟩
    rcases final.accepted.laid final.compiled with ⟨_, laidFinal⟩
    rcases laidFinal.exists_typing with ⟨typing, _⟩
    have follows := Source.follows_all pools rfl machine.runs typing stands returns
    rw [List.nil_append] at runsEq
    rw [← runsEq] at follows
    refine ⟨more, fun steps => ?_⟩
    have pace := awaitsLast.keepsPace (Merged.faithful _ _ _) settled typing follows steps
    have wholeEq : machine.interpret whole (more + steps) = reached.advance steps := by
      rw [Machine.interpret, Machine.load_eq, if_pos room]
      exact Machine.advance_add ran steps
    rw [wholeEq]
    exact pace.agrees (settled.interpret final.compiled steps)
  · rcases completes.eq_of_noRoom room with ⟨none, rfl⟩
    have scriptEq : final.script = whole := by
      rw [List.map_eq_nil_iff.mp none, List.nil_append, List.map_singleton,
        String.intercalate_singleton, final.compiled] at compiledWhole
      cases compiledWhole
      rfl
    refine ⟨0, fun steps => ?_⟩
    rw [Nat.zero_add, ← scriptEq, Machine.interpret, Machine.load_eq, if_neg room]
    exact ⟨rfl, rfl, rfl, scriptEq ▸ store.globals⟩

/-- A program that leaves a function in two variables, with a comment up to its end. -/
def leadingText : String :=
  "fun f() { return f; } var g = f; // no more"

/-- A program that compares what the other one has left. -/
def followingText : String :=
  "print f() == g;"

/-- The comment ends with the line, and the function is the same to both programs. -/
theorem interpret_intercalate_leadingText :
    ∃ middle script whole, (Machine.fresh ⟨16, 4⟩ .unlimited).Completes [leadingText] middle ∧
      compile followingText = .ok script ∧
      compile ("\n".intercalate ([leadingText] ++ [followingText])) = .ok whole ∧
      ∃ same : Origin → Origin → Prop,
        (∀ {first second other another : Origin}, same first other → same second another →
          (first = second ↔ other = another)) ∧
        ∃ lead, ∀ steps, Progress.Agrees same (middle.interpret script steps)
          ((Machine.fresh ⟨16, 4⟩ .unlimited).interpret whole (lead + steps)) := by
  have evaluated : ((compile leadingText).toOption.any fun first =>
        ((Machine.fresh ⟨16, 4⟩ .unlimited).interpret first 12).succeeds) &&
      (compile followingText).toOption.isSome &&
      (compile ("\n".intercalate ([leadingText] ++ [followingText]))).toOption.isSome := by
    decide +kernel
  simp only [Bool.and_eq_true, Option.any_eq_true, Option.isSome_iff_exists] at evaluated
  rcases evaluated with ⟨⟨⟨first, compiledFirst, succeeds⟩, script, compiled⟩, whole, compiledWhole⟩
  rcases Progress.exists_value succeeds with ⟨value, middle, ends⟩
  have completes : (Machine.fresh ⟨16, 4⟩ .unlimited).Completes [leadingText] middle :=
    .more (compile_of_toOption compiledFirst) ends (.none middle)
  have compiled := compile_of_toOption compiled
  have compiledWhole := compile_of_toOption compiledWhole
  rcases (interpret_intercalate .fresh completes compiled).2 whole compiledWhole with
    ⟨same, oneToOne, _, keepsPace⟩
  exact ⟨middle, script, whole, completes, compiled, compiledWhole, same, oneToOne, keepsPace⟩

end StackScript
