import StackScript.Proofs.Lockstep

/-!
# Programs in one program

The program that joins several others has their code one after the other, and the functions in its
pool are theirs in the same order. So two functions are the same there if and only if they are the
same here.
-/

namespace StackScript

/--
Which function of programs that are loaded one after the other, from run `runs` on, is which one of
the program that joins them, if that is loaded instead. Older functions stay what they are.
-/
inductive Merged (runs : Nat) (scripts : List Function) (whole : Function) :
    Origin → Origin → Prop where
  | older {origin : Origin} (early : origin.run < runs) : Merged runs scripts whole origin origin
  | newer {front back : List Function} {script function another : Function} {place other : Nat}
      (path : List Nat) (split : scripts = front ++ script :: back)
      (held : script.chunk.constants[place]? = some (.function function))
      (heldToo : whole.chunk.constants[other]? = some (.function another))
      (counted : whole.chunk.rank other =
        script.chunk.rank place + (front.flatMap (·.chunk.functions)).length) :
      Merged runs scripts whole ⟨runs + front.length, path ++ [place]⟩ ⟨runs, path ++ [other]⟩

namespace Chunk

variable {chunk : Chunk Constant} {place : Nat} {function : Function}

theorem rank_lt_length (held : chunk.constants[place]? = some (.function function)) :
    chunk.rank place < chunk.functions.length :=
  (List.getElem?_eq_some_iff.mp (getElem?_functions held)).1

end Chunk

namespace Merged

variable {runs : Nat} {scripts front back others rest : List Function}
  {script second whole : Function}

section

variable (split : scripts = front ++ script :: back) (splitToo : scripts = others ++ second :: rest)
include split splitToo

theorem length_le_of_earlier (earlier : front.length < others.length) :
    script.chunk.functions.length + (front.flatMap (·.chunk.functions)).length ≤
      (others.flatMap (·.chunk.functions)).length := by
  rw [split] at splitToo
  rcases List.append_eq_append_iff.mp splitToo with
    ⟨between, othersEq, backEq⟩ | ⟨between, frontEq, _⟩
  · cases between with
    | nil =>
      rw [othersEq, List.append_nil] at earlier
      omega
    | cons first between =>
      cases backEq
      rw [othersEq, List.flatMap_append, List.flatMap_cons, List.length_append, List.length_append]
      omega
  · rw [frontEq, List.length_append] at earlier
    omega

theorem length_eq_of_counted {rank rankToo : Nat} (inside : rank < script.chunk.functions.length)
    (insideToo : rankToo < second.chunk.functions.length)
    (counted : rank + (front.flatMap (·.chunk.functions)).length =
      rankToo + (others.flatMap (·.chunk.functions)).length) : front.length = others.length := by
  rcases Nat.lt_trichotomy front.length others.length with earlier | sameLength | later
  · have before := length_le_of_earlier split splitToo earlier
    omega
  · exact sameLength
  · have before := length_le_of_earlier splitToo split later
    omega

theorem eq_of_length_eq (lengths : front.length = others.length) :
    front = others ∧ script = second := by
  rw [split] at splitToo
  rcases List.append_inj splitToo lengths with ⟨frontEq, backEq⟩
  exact ⟨frontEq, (List.cons.inj backEq).1⟩

end

theorem faithful (runs : Nat) (scripts : List Function) (whole : Function) :
    Faithful (Merged runs scripts whole) := by
  refine ⟨?_, ?_⟩
  · intro first second other another merged mergedToo
    cases merged with
    | older early =>
      cases mergedToo with
      | older earlyToo => exact Iff.rfl
      | newer path split held heldToo counted =>
        constructor
        · rintro rfl
          simp only at early
          omega
        · rintro rfl
          simp only at early
          omega
    | newer path split held heldToo counted =>
      cases mergedToo with
      | older earlyToo =>
        constructor
        · rintro rfl
          simp only at earlyToo
          omega
        · rintro rfl
          simp only at earlyToo
          omega
      | newer pathToo splitToo heldSecond heldSecondToo countedSecond =>
        have ranks := Chunk.eq_of_rank_eq heldToo heldSecondToo
        rw [counted, countedSecond] at ranks
        constructor
        · intro sameOrigin
          simp only [Origin.mk.injEq, Nat.add_right_inj] at sameOrigin
          rcases List.append_inj' sameOrigin.2 rfl with ⟨rfl, placeEq⟩
          cases placeEq
          rcases eq_of_length_eq split splitToo sameOrigin.1 with ⟨rfl, rfl⟩
          rw [ranks rfl]
        · intro sameOrigin
          simp only [Origin.mk.injEq, true_and] at sameOrigin
          rcases List.append_inj' sameOrigin rfl with ⟨rfl, otherEq⟩
          cases otherEq
          have countsEq := counted.symm.trans countedSecond
          have lengths := length_eq_of_counted split splitToo (Chunk.rank_lt_length held)
            (Chunk.rank_lt_length heldSecond) countsEq
          rcases eq_of_length_eq split splitToo lengths with ⟨rfl, rfl⟩
          rw [Chunk.eq_of_rank_eq held heldSecond (Nat.add_right_cancel countsEq)]
  · intro first other place merged
    cases merged with
    | older early => exact .older early
    | newer path split held heldToo counted =>
      exact .newer (place :: path) split held heldToo counted

end Merged

/-! ## Instructions -/

variable {same : Origin → Origin → Prop} {whole script : Function}
  {back front scripts : List Function} {before : Nat} {instruction : Instruction}

theorem Order.Stands.size_eq {left right : Chunk Constant} {order : Order} {twin : Instruction}
    (stands : order.Stands left 0 instruction) (standsToo : order.Stands right before twin) :
    twin.size = instruction.size := by
  cases stands <;> cases standsToo <;> rfl

theorem Order.Stands.pairs {run runs : Nat} {order : Order} {twin : Instruction}
    (stands : order.Stands script.chunk 0 instruction)
    (standsToo : order.Stands whole.chunk before twin)
    (declares : ∀ {place other : Nat} {function another : Function},
      script.chunk.constants[place]? = some (.function function) →
      whole.chunk.constants[other]? = some (.function another) →
      whole.chunk.rank other = script.chunk.rank place + before →
      Callable.Twin same ⟨function, ⟨run, [place]⟩⟩ ⟨another, ⟨runs, [other]⟩⟩) :
    Callable.Pairs same (.script run script) (.script runs whole) instruction twin := by
  cases stands with
  | plain noPool =>
    cases standsToo
    exact .same noPool
  | @load _ constant plain held =>
    cases standsToo with
    | load _ heldToo =>
      refine .constant held heldToo ?_
      cases constant with
      | function => cases plain
      | _ => constructor
  | function held counted =>
    cases standsToo with
    | function heldToo countedToo =>
      exact .constant held heldToo (.function (declares held heldToo (by omega)))
  | get named =>
    cases standsToo with
    | get namedToo => exact .getGlobal named namedToo
  | set named =>
    cases standsToo with
    | set namedToo => exact .setGlobal named namedToo
  | define named =>
    cases standsToo with
    | define namedToo => exact .defineGlobal named namedToo

namespace Chunk.Holds

variable {left right : Chunk Constant} {orders : List Order} {start stop place target : Nat}

theorem aligned (holds : left.Holds 0 orders start stop)
    (holdsToo : right.Holds before orders place target) : stop + place = target + start := by
  induction orders generalizing start place with
  | nil =>
    cases holds
    cases holdsToo
    exact Nat.add_comm _ _
  | cons order rest ih =>
    rcases holds with ⟨_, _, stands, onward⟩
    rcases holdsToo with ⟨_, _, standsToo, onwardToo⟩
    have ends := ih onward onwardToo
    rw [stands.size_eq standsToo] at ends
    omega

theorem exists_twin {offset : Nat} {offsets : List Nat} (holds : left.Holds 0 orders start stop)
    (holdsToo : right.Holds before orders place target) (walk : Walk left.code start offsets stop)
    (present : offset ∈ offsets) (found : left.Has offset instruction) :
    ∃ (order : Order) (other : Nat) (twin : Instruction), other + start = offset + place ∧
      right.Has other twin ∧ order.Stands left 0 instruction ∧ order.Stands right before twin := by
  induction orders generalizing start place offsets with
  | nil =>
    cases holds
    cases walk with
    | done => cases present
    | @step _ _ _ passed _ onward =>
      have behind := onward.le
      have longer : 0 < passed.size := Opcode.size_pos passed.opcode
      omega
  | cons order rest ih =>
    rcases holds with ⟨passed, foundHere, stands, holds⟩
    rcases holdsToo with ⟨twin, foundToo, standsToo, holdsToo⟩
    cases walk with
    | done => cases present
    | step reads onward =>
      cases Chunk.Typing.has_unique foundHere reads
      rcases List.mem_cons.mp present with rfl | later
      · cases Chunk.Typing.has_unique found foundHere
        exact ⟨order, place, twin, Nat.add_comm _ _, foundToo, stands, standsToo⟩
      · rcases ih holds holdsToo onward later with ⟨further, other, another, aligned, meets⟩
        rw [stands.size_eq standsToo] at aligned
        exact ⟨further, other, another, by omega, meets⟩

end Chunk.Holds

/-! ## Programs -/

/-- A text, its tree and its code. -/
structure Source where
  text : String
  program : Statement
  script : Function
  accepted : Accepted text program
  compiled : compile text = .ok script

namespace Source

theorem exists_of_compile {text : String} {script : Function}
    (compiled : compile text = .ok script) :
    ∃ source : Source, source.text = text ∧ source.script = script := by
  rcases Accepted.of_compile compiled with ⟨program, _, accepted, _⟩
  exact ⟨⟨text, program, script, accepted, compiled⟩, rfl, rfl⟩

theorem exists_steady (source : Source) :
    ∃ functions, Compile.Steady functions source.program.generate ∧
      List.Forall₂ Function.Alike source.script.chunk.functions functions ∧
      functions.length = source.program.functionCount := by
  rcases source.program.exists_steady with ⟨functions, counted, steady⟩
  exact ⟨functions, steady, source.accepted.functions_alike source.compiled steady, counted⟩

theorem length_functions (source : Source) :
    source.script.chunk.functions.length = source.program.functionCount := by
  rcases source.exists_steady with ⟨functions, _, alike, counted⟩
  rw [alike.length_eq, counted]

theorem exists_added (sources : List Source) :
    ∃ added : List (List Function),
      List.Forall₂ (fun program functions => Compile.Steady functions program.generate)
        (sources.map program) added ∧
      List.Forall₂ (List.Forall₂ Function.Alike)
        (sources.map (·.script.chunk.functions)) added := by
  induction sources with
  | nil => exact ⟨[], .nil, .nil⟩
  | cons source sources ih =>
    rcases source.exists_steady with ⟨functions, steady, alike, _⟩
    rcases ih with ⟨added, steadyAll, alikeAll⟩
    exact ⟨functions :: added, .cons steady steadyAll, .cons alike alikeAll⟩

end Source

theorem Function.Alike.joinAll {left right common : List Function}
    (alike : List.Forall₂ Function.Alike left common)
    (alikeToo : List.Forall₂ Function.Alike right common) :
    List.Forall₂ Function.Alike left right := by
  induction alike generalizing right with
  | nil =>
    cases alikeToo
    exact .nil
  | cons first _ ih =>
    cases alikeToo with
    | cons firstToo rest => exact .cons (first.join firstToo) (ih rest)

/-- Whether the functions of a program are those of several others, one after the other. -/
def Function.Pools (whole : Function) (scripts : List Function) : Prop :=
  List.Forall₂ Function.Alike (scripts.flatMap (·.chunk.functions)) whole.chunk.functions

theorem Source.pools {sources : List Source} {text : String}
    (accepted : Accepted text (.joinAll (sources.map program)))
    (compiled : compile text = .ok whole) : whole.Pools (sources.map Source.script) := by
  rcases exists_added sources with ⟨added, steady, alike⟩
  have together := accepted.functions_alike compiled (Statement.joinAll_steady steady)
  have separate := List.rel_flatten alike
  rw [Function.Pools, List.flatMap_map, List.flatMap_def]
  exact Function.Alike.joinAll separate together

theorem Function.Pools.declares {function another : Function} {place other : Nat}
    (pools : whole.Pools scripts) (split : scripts = front ++ script :: back) (runs : Nat)
    (held : script.chunk.constants[place]? = some (.function function))
    (heldToo : whole.chunk.constants[other]? = some (.function another))
    (counted : whole.chunk.rank other =
      script.chunk.rank place + (front.flatMap (·.chunk.functions)).length) :
    Callable.Twin (Merged runs scripts whole) ⟨function, ⟨runs + front.length, [place]⟩⟩
      ⟨another, ⟨runs, [other]⟩⟩ := by
  refine ⟨?_, .newer [] split held heldToo counted⟩
  rcases forall₂_getElem? pools (Chunk.getElem?_functions heldToo) with ⟨same, found, alike⟩
  rw [counted, split, List.flatMap_append, List.flatMap_cons, Nat.add_comm,
    List.getElem?_append_right (Nat.le_add_right _ _), Nat.add_sub_cancel_left,
    List.getElem?_append_left (Chunk.rank_lt_length held), Chunk.getElem?_functions held] at found
  cases found
  exact alike

/-- The two programs of a run of one of several programs and of a run of all of them. -/
def Source.track (source : Source) (run : Nat) (whole : Callable) (start : Nat) : Track :=
  ⟨.script run source.script, whole, start⟩

theorem Source.follows {source : Source} {layout : Layout} {start stop : Nat}
    {marks : List (Nat × Nat)} (pools : whole.Pools scripts)
    (split : scripts = front ++ source.script :: back) (runs : Nat)
    (typing : source.script.chunk.Typing (source.script.arity + 1))
    (code : source.program.CodeAt whole.chunk layout start stop marks)
    (locates : Site.script.Locates layout start 0 (front.flatMap (·.chunk.functions)).length 0) :
    stop = typing.done + start ∧
      ∀ point ∈ typing.points,
        (source.track (runs + front.length) (.script runs whole) start).Follows
          (Merged runs scripts whole) point.1 := by
  rcases source.accepted.laid source.compiled with ⟨stops, laid⟩
  rcases laid.implements with ⟨done, codeOwn, finishes⟩
  have doneEq : done = typing.done := by
    have sized : source.script.chunk.size = done + 2 := finishes.2.2
    rw [typing.size_eq] at sized
    omega
  subst doneEq
  have holds := source.program.carried laid.placed codeOwn .script
  have holdsToo := source.program.carried laid.placed code locates
  refine ⟨(holds.aligned holdsToo).symm, ?_⟩
  intro point present instruction found
  rcases holds.exists_twin holdsToo typing.segment.walk (List.mem_map_of_mem present) found with
    ⟨order, place, twin, placeEq, foundToo, stands, standsToo⟩
  have placeEq : place = point.1 + start := placeEq
  subst placeEq
  exact ⟨twin, foundToo, stands.pairs standsToo (pools.declares split runs)⟩

end StackScript
