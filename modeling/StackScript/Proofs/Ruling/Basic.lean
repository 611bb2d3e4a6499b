import StackScript.Proofs.Placement.Stretch
import StackScript.Proofs.Rules

/-!
# How much code and how many constants were written

The rules count bytes and constants. `Compiler.Lays` says of a stretch of writing how many bytes
and which locals it has added, which constants the pool has come to, and how far the jumps that
leave the loop around it are from any place ahead.
-/

namespace StackScript

open Compile

/-! ## Constants -/

namespace Use

variable (first second third : Use)

theorem add_assoc : first + second + third = first + (second + third) := by
  change Use.mk _ _ = Use.mk _ _
  rw [Use.mk.injEq]
  exact ⟨Nat.add_assoc .., Finset.union_assoc ..⟩

theorem add_none : first + none = first := by
  change Use.mk _ _ = first
  simp [none]

theorem none_add : none + first = first := by
  change Use.mk _ _ = first
  simp [none]

theorem count_le_add : first.count ≤ (first + second).count := by
  have fewer : first.globals.card ≤ (first.globals ∪ second.globals).card :=
    Finset.card_le_card Finset.subset_union_left
  change first.literals + first.globals.card ≤
    first.literals + second.literals + (first.globals ∪ second.globals).card
  omega

end Use

/-- Whether there is room for constants. -/
def Use.Fits (use : Use) : Prop :=
  use.count ≤ Chunk.maxConstants

theorem Use.Fits.left {first second : Use} (fits : (first + second).Fits) : first.Fits :=
  Nat.le_trans (count_le_add first second) fits

namespace Compile.Settles

variable {α β : Type} {rule allowed allowed' fit fit' : Prop} {use total : Use}
  {post : α → Compiler → Prop} {post' : β → Compiler → Prop} {writer : Compiler}
  {action : Compile α} {next : α → Compile β}

theorem andMore (first : Settles allowed (use.Fits ∧ fit) post (action writer))
    (rules : rule ↔ allowed ∧ allowed') (grows : total.Fits → use.Fits)
    (second : ∀ value after, use.Fits → post value after →
      Settles allowed' (total.Fits ∧ fit') post' (next value after)) :
    Settles rule (total.Fits ∧ fit ∧ fit') post' ((action >>= next) writer) := by
  apply first.andThen rules _ fun value after _ enough => second value after enough.1
  constructor
  · rintro ⟨room, fits, fits'⟩
    exact ⟨⟨grows room, fits⟩, room, fits'⟩
  · rintro ⟨⟨_, fits⟩, room, fits'⟩
    exact ⟨room, fits, fits'⟩

theorem thenMore (first : Settles allowed use.Fits post (action writer))
    (rules : rule ↔ allowed ∧ allowed') (grows : total.Fits → use.Fits)
    (second : ∀ value after, use.Fits → post value after →
      Settles allowed' (total.Fits ∧ fit') post' (next value after)) :
    Settles rule (total.Fits ∧ fit') post' ((action >>= next) writer) := by
  apply first.andThen rules _ fun value after _ => second value after
  exact ⟨fun more => ⟨grows more.1, more⟩, And.right⟩

end Compile.Settles

theorem Local.isSome_resolve? (name : String) (locals : List Local) :
    (resolve? name locals).isSome = true ↔ name ∈ locals.map (·.name) := by
  induction locals with
  | nil => simp [resolve?]
  | cons entry outer ih =>
    rw [resolve?, List.map_cons, List.mem_cons]
    by_cases same : entry.name = name
    · simp [same]
    · rw [if_neg same, ih]
      simp [Ne.symm same]

theorem Local.mem_of_resolve? {name : String} {locals : List Local} {slot : Nat} {entry : Local}
    (found : resolve? name locals = some (slot, entry)) : entry ∈ locals := by
  induction locals with
  | nil => cases found
  | cons other outer ih =>
    rw [resolve?] at found
    split at found
    · cases found
      exact List.mem_cons_self
    · exact List.mem_cons_of_mem _ (ih found)

/-- Whether a pool has these constants. -/
structure Pool.Holds (pool : Pool) (use : Use) : Prop where
  size_eq : pool.size = use.count
  mem_iff : ∀ name, name ∈ use.globals ↔ (pool.names[name]?).isSome = true

namespace Pool.Holds

variable {pool : Pool} {use : Use}

theorem empty : Pool.Holds ⟨#[], ∅⟩ .none :=
  ⟨rfl, fun name => by simp [Use.none]⟩

theorem add (holds : pool.Holds use) (constant : Constant) :
    (pool.add constant).Holds (use + .literal) := by
  refine ⟨?_, ?_⟩
  · have size := holds.size_eq
    change (pool.constants.push constant).size = use.literals + 1 + (use.globals ∪ ∅).card
    rw [Array.size_push, Finset.union_empty]
    simp only [Pool.size, Use.count] at size
    omega
  · intro name
    change name ∈ use.globals ∪ ∅ ↔ _
    rw [Finset.union_empty]
    exact holds.mem_iff name

theorem withName (holds : pool.Holds use) (name : String) :
    (pool.withName name).Holds (use + .global name) := by
  have size := holds.size_eq
  have known := holds.mem_iff name
  rw [Pool.withName]
  cases found : pool.names[name]? with
  | some place =>
    have present : name ∈ use.globals := by
      rw [known, found]
      rfl
    have same : use + .global name = use := by
      change Use.mk (use.literals + 0) (use.globals ∪ {name}) = use
      rw [Finset.union_eq_left.mpr (Finset.singleton_subset_iff.mpr present)]
      rfl
    rw [same]
    exact holds
  | none =>
    have absent : name ∉ use.globals := by
      rw [known, found]
      simp
    have grown : use + .global name = ⟨use.literals, insert name use.globals⟩ := by
      change Use.mk (use.literals + 0) (use.globals ∪ {name}) = _
      rw [Finset.union_comm, ← Finset.insert_eq]
      rfl
    rw [grown]
    refine ⟨?_, ?_⟩
    · simp only [Pool.size, Array.size_push, Use.count, Finset.card_insert_of_notMem absent]
        at size ⊢
      omega
    · intro other
      rw [Finset.mem_insert, holds.mem_iff other, Std.TreeMap.getElem?_insert]
      by_cases same : name = other
      · simp [same]
      · have differs : compare name other ≠ .eq := by
          intro equal
          exact same (Std.LawfulEqCmp.eq_of_compare equal)
        simp [differs, Ne.symm same]

theorem resolve {locals : List Local} {names : List String} (holds : pool.Holds use)
    (namesEq : locals.map (·.name) = names) (name : String) :
    (pool.resolve locals name).Holds (use + .access names name) := by
  have found := Local.isSome_resolve? name locals
  rw [namesEq] at found
  rw [Pool.resolve, Use.access]
  cases resolved : Local.resolve? name locals with
  | some place =>
    rw [if_pos (by rw [← found, resolved]; rfl), Use.add_none]
    exact holds
  | none =>
    rw [if_neg (by rw [← found, resolved]; simp)]
    exact holds.withName name

end Pool.Holds

namespace Expression

variable {locals : List Local} {names : List String}

theorem fillAll_holds {arguments : List Expression}
    (each : ∀ argument ∈ arguments, ∀ {pool : Pool} {use : Use}, pool.Holds use →
      (argument.fill locals pool).Holds (use + argument.use names))
    {pool : Pool} {use : Use} (holds : pool.Holds use) :
    (fillAll locals arguments pool).Holds (use + useAll names arguments) := by
  induction arguments generalizing pool use with
  | nil =>
    rw [fillAll, useAll, Use.add_none]
    exact holds
  | cons first rest ih =>
    rw [fillAll, useAll, ← Use.add_assoc]
    apply ih
    · intro argument present
      exact each argument (List.mem_cons_of_mem _ present)
    · exact each first List.mem_cons_self holds

theorem fill_holds (namesEq : locals.map (·.name) = names) (expression : Expression)
    {pool : Pool} {use : Use} (holds : pool.Holds use) :
    (expression.fill locals pool).Holds (use + expression.use names) := by
  induction expression generalizing pool use with
  | number value => exact holds.add _
  | string text => exact holds.add _
  | literal value =>
    rw [fill, Expression.use, Use.add_none]
    exact holds
  | reference name => exact holds.resolve namesEq name
  | assign name value ih =>
    rw [fill, Expression.use, ← Use.add_assoc]
    exact ih (holds.resolve namesEq name)
  | unary operator operand ih => exact ih holds
  | binary operator left right ihLeft ihRight =>
    rw [fill, Expression.use, ← Use.add_assoc]
    exact ihRight (ihLeft holds)
  | and left right ihLeft ihRight =>
    rw [fill, Expression.use, ← Use.add_assoc]
    exact ihRight (ihLeft holds)
  | or left right ihLeft ihRight =>
    rw [fill, Expression.use, ← Use.add_assoc]
    exact ihRight (ihLeft holds)
  | call callee arguments ihCallee ihArguments =>
    rw [fill, Expression.use, ← Use.add_assoc]
    exact fillAll_holds (fun argument present => ihArguments argument present) (ihCallee holds)

end Expression

/-! ## Stretches of code -/

/--
Whether writing added that many bytes and these locals, and came to these constants; `exits` gives
the distances of the jumps that leave the loop around it.
-/
structure Compiler.Lays (writer : Compiler) (bytes : Nat) (declared : List String)
    (exits : Nat → List Nat) (use : Use) (after : Compiler) : Prop where
  head_eq : after.draft.head = writer.draft.head
  locals_eq : after.draft.locals =
    declared.map (⟨·, some writer.draft.depth⟩) ++ writer.draft.locals
  leaves : ∃ jumps, after.draft.scopes = Scope.addBreaks jumps writer.draft.scopes ∧
    ∀ ahead, List.Forall₂ (fun jump distance => jump + 2 + distance =
      after.draft.chunk.size + ahead) jumps (exits ahead)
  size_eq : after.draft.chunk.size = writer.draft.chunk.size + bytes
  holds : after.draft.pooled.Holds use
  enclosing_eq : after.enclosing = writer.enclosing

/-- Whether code was added. -/
abbrev Compiler.Adds (writer : Compiler) (bytes : Nat) (use : Use) (after : Compiler) : Prop :=
  writer.Lays bytes [] (fun _ => []) use after

namespace Compiler.Lays

variable {writer middle after : Compiler} {bytes more : Nat} {declared later : List String}
  {exits exits' : Nat → List Nat} {use use' : Use}

theorem of_frame (frame : writer.draft.SameFrame after.draft)
    (sizeEq : after.draft.chunk.size = writer.draft.chunk.size + bytes)
    (holds : after.draft.pooled.Holds use) (enclosingEq : after.enclosing = writer.enclosing) :
    writer.Adds bytes use after :=
  ⟨frame.head_eq, frame.locals_eq, ⟨[], frame.scopes_eq, fun _ => .nil⟩, sizeEq, holds, enclosingEq⟩

theorem refl (holds : writer.draft.pooled.Holds use) : writer.Adds 0 use writer :=
  of_frame (.refl _) rfl holds rfl

theorem depth_eq (lays : writer.Lays bytes declared exits use after) :
    after.draft.depth = writer.draft.depth := by
  rcases lays.leaves with ⟨jumps, scopesEq, _⟩
  rw [Draft.depth, scopesEq, Scope.length_addBreaks, Draft.depth]

theorem scopes_eq (lays : writer.Lays bytes declared (fun _ => []) use after) :
    after.draft.scopes = writer.draft.scopes := by
  rcases lays.leaves with ⟨jumps, scopesEq, distances⟩
  rw [scopesEq, List.forall₂_nil_right_iff.mp (distances 0)]
  rfl

theorem trans (first : writer.Lays bytes declared exits use middle)
    (second : middle.Lays more later exits' use' after) :
    writer.Lays (bytes + more) (later ++ declared)
      (fun ahead => exits' ahead ++ exits (more + ahead)) use' after := by
  rcases first.leaves with ⟨jumps, scopesEq, distances⟩
  rcases second.leaves with ⟨jumps', scopesEq', distances'⟩
  refine ⟨second.head_eq.trans first.head_eq, ?_, ⟨jumps' ++ jumps, ?_, ?_⟩, ?_, second.holds,
    second.enclosing_eq.trans first.enclosing_eq⟩
  · rw [second.locals_eq, first.locals_eq, first.depth_eq, List.map_append, List.append_assoc]
  · rw [scopesEq', scopesEq, Scope.addBreaks_append]
  · intro ahead
    have earlier := distances (more + ahead)
    rw [← Nat.add_assoc, ← second.size_eq] at earlier
    exact List.rel_append (distances' ahead) earlier
  · rw [second.size_eq, first.size_eq, Nat.add_assoc]

theorem write (lays : writer.Lays bytes declared exits use middle) (opcode : Opcode)
    (operand line : Nat) :
    writer.Lays (bytes + opcode.size) declared (fun ahead => exits (opcode.size + ahead)) use
      (middle.onDraft (·.write opcode operand line)) := by
  have wrote : middle.Adds opcode.size use (middle.onDraft (·.write opcode operand line)) := by
    refine of_frame ⟨rfl, rfl, rfl⟩ ?_ lays.holds rfl
    simp [Compiler.onDraft, Draft.write]
  exact lays.trans wrote

theorem patch (lays : writer.Lays bytes declared exits use middle) (offset word : Nat) :
    writer.Lays bytes declared exits use (middle.onDraft (·.patch offset word)) := by
  have patched : middle.Adds 0 use (middle.onDraft (·.patch offset word)) := by
    refine of_frame ⟨rfl, rfl, rfl⟩ ?_ lays.holds rfl
    simp [Compiler.onDraft, Draft.patch]
  simpa using lays.trans patched

theorem cast (lays : writer.Lays bytes declared exits use after) (bytesEq : bytes = more)
    (declaredEq : declared = later) (exitsEq : ∀ ahead, exits ahead = exits' ahead)
    (useEq : use = use') : writer.Lays more later exits' use' after := by
  have same : exits = exits' := funext exitsEq
  subst bytesEq declaredEq same useEq
  exact lays

end Compiler.Lays

/-- What is written by an expression, whose constants and rules are known from its tree. -/
theorem Expression.adds (expression : Expression) {writer : Compiler} {names : List String}
    {use : Use} (namesEq : writer.draft.locals.map (·.name) = names)
    (holds : writer.draft.pooled.Holds use) (room : use.Fits) :
    Settles (expression.Legal writer.draft.locals) (use + expression.use names).Fits
      (fun _ after => writer.Adds expression.size (use + expression.use names) after)
      (expression.generate writer) := by
  have filled := expression.fill_holds namesEq holds
  have settles := expression.assembled writer (by rw [holds.size_eq]; exact room)
  rw [filled.size_eq] at settles
  apply settles.imp
  intro _ after _ _ appends
  refine .of_frame appends.frame ?_ ?_ appends.enclosing_eq
  · rw [appends.size_eq, expression.length_code]
  · rw [appends.pool_eq]
    exact filled

namespace Compile

variable {writer middle : Compiler} {bytes distance : Nat} {declared : List String}
  {exits : Nat → List Nat} {use : Use}

theorem emit_lays {opcode : Opcode} (bare : opcode.operandSize = 0)
    (lays : writer.Lays bytes declared exits use middle) :
    ∃ after, emit opcode middle = .ok () after ∧
      writer.Lays (bytes + 1) declared (fun ahead => exits (1 + ahead)) use after := by
  refine ⟨_, emit_apply bare middle, ?_⟩
  have wrote := lays.write opcode 0 middle.previous.line
  rwa [Opcode.size, bare] at wrote

theorem emitPops_adds (count : Nat) (adds : writer.Adds bytes use middle) :
    ∃ after, emitPops count middle = .ok () after ∧ writer.Adds (bytes + count) use after := by
  induction count generalizing middle bytes with
  | zero => exact ⟨middle, rfl, adds⟩
  | succ count ih =>
    rcases emit_lays (show Opcode.pop.operandSize = 0 from rfl) adds with ⟨popped, ran, added⟩
    rcases ih added with ⟨after, ranRest, addedAll⟩
    refine ⟨after, (bind_of_ok ran).trans ranRest, ?_⟩
    rwa [Nat.add_assoc, Nat.add_comm 1] at addedAll

theorem patchJump_lays {offset : Nat} (lays : writer.Lays bytes declared exits use middle)
    (distanceEq : offset + 2 + distance = middle.draft.chunk.size) :
    Settles (distance ≤ maxDistance) True
      (fun _ after => writer.Lays bytes declared exits use after) (patchJump offset middle) := by
  have distanceIs : middle.draft.chunk.size - (offset + 2) = distance := by omega
  have settles := patchJump_settles (show offset + 2 ≤ middle.draft.chunk.size by omega)
  rw [distanceIs] at settles
  apply settles.imp
  rintro _ _ _ _ rfl
  exact lays.patch offset distance

theorem emitLoop_lays {start : Nat} (lays : writer.Lays bytes declared exits use middle)
    (distanceEq : start + distance = middle.draft.chunk.size + 3) :
    Settles (distance ≤ maxDistance) True
      (fun _ after => writer.Lays (bytes + 3) declared (fun ahead => exits (3 + ahead)) use after)
      (emitLoop start middle) := by
  have distanceIs : middle.draft.chunk.size + 3 - start = distance := by omega
  have settles := emitLoop_settles (show start ≤ middle.draft.chunk.size + 3 by omega)
  rw [distanceIs] at settles
  apply settles.imp
  rintro _ _ _ _ rfl
  exact lays.write .loop distance middle.previous.line

end Compile

end StackScript
