import StackScript.Proofs.Drafting

/-!
# Stretches of writing

A stretch of writing turns one draft into another. `Draft.Stretch` gathers what is known about it:
the locals that it adds, the jumps that it leaves open, how many functions it puts into the pool,
and what a final chunk is found to hold. Stretches are composed one after the other.
-/

namespace StackScript

open Compile

namespace Scope

variable {scope : Scope} {scopes : List Scope}

/-- Adds jumps to those that leave the innermost loop, the latest first. -/
def addBreaks : List Nat → List Scope → List Scope
  | [], scopes => scopes
  | jump :: jumps, scopes => addBreak jump (addBreaks jumps scopes)

theorem addBreaks_append (later earlier : List Nat) (scopes : List Scope) :
    addBreaks (later ++ earlier) scopes = addBreaks later (addBreaks earlier scopes) := by
  induction later with
  | nil => rfl
  | cons jump later ih => simp only [List.cons_append, addBreaks, ih]

theorem addBreaks_other (other : scope.kind ≠ .loop) (breaks : List Nat) (outer : List Scope) :
    addBreaks breaks (scope :: outer) = scope :: addBreaks breaks outer := by
  induction breaks with
  | nil => rfl
  | cons jump breaks ih => simp only [addBreaks, ih, addBreak, if_neg other]

theorem addBreaks_loop (loop : scope.kind = .loop) (breaks : List Nat) (outer : List Scope) :
    addBreaks breaks (scope :: outer) =
      { scope with breaks := breaks ++ scope.breaks } :: outer := by
  induction breaks with
  | nil => rfl
  | cons jump breaks ih => simp only [addBreaks, ih, addBreak, if_pos loop, List.cons_append]

@[simp] theorem length_addBreak (jump : Nat) (scopes : List Scope) :
    (addBreak jump scopes).length = scopes.length := by
  induction scopes with
  | nil => rfl
  | cons scope outer ih =>
    simp only [addBreak]
    split
    · rfl
    · simp [ih]

@[simp] theorem length_addBreaks (breaks : List Nat) (scopes : List Scope) :
    (addBreaks breaks scopes).length = scopes.length := by
  induction breaks with
  | nil => rfl
  | cons jump breaks ih => simp [addBreaks, ih]

theorem innermostLoop?_addBreak (jump : Nat) (scopes : List Scope) :
    innermostLoop? (addBreak jump scopes) =
      (innermostLoop? scopes).map fun scope => { scope with breaks := jump :: scope.breaks } := by
  induction scopes with
  | nil => rfl
  | cons scope outer ih =>
    simp only [addBreak, innermostLoop?] at ih ⊢
    by_cases loop : scope.kind = .loop
    · simp [loop]
    · simp [loop, ih]

theorem innermostLoop?_addBreaks {breaks : List Nat}
    (found : innermostLoop? (addBreaks breaks scopes) = some scope) :
    ∃ same, innermostLoop? scopes = some same ∧ scope.depth = same.depth ∧
      scope.loopStart = same.loopStart := by
  induction breaks generalizing scope with
  | nil => exact ⟨scope, found, rfl, rfl⟩
  | cons jump breaks ih =>
    rw [addBreaks, innermostLoop?_addBreak, Option.map_eq_some_iff] at found
    rcases found with ⟨inner, found, rfl⟩
    rcases ih found with ⟨same, foundBefore, depthEq, startEq⟩
    exact ⟨same, foundBefore, depthEq, startEq⟩

/-- Whether scopes are numbered. -/
def Nested : List Scope → Prop
  | [] => True
  | scope :: outer => scope.depth = outer.length + 1 ∧ Nested outer

theorem Nested.addBreak (nested : Nested scopes) (jump : Nat) : Nested (addBreak jump scopes) := by
  induction scopes with
  | nil => trivial
  | cons scope outer ih =>
    simp only [Scope.addBreak]
    split
    · exact nested
    · exact ⟨by simpa using nested.1, ih nested.2⟩

theorem Nested.addBreaks (nested : Nested scopes) (breaks : List Nat) :
    Nested (addBreaks breaks scopes) := by
  induction breaks with
  | nil => exact nested
  | cons jump breaks ih => exact ih.addBreak jump

theorem Nested.depth_le (nested : Nested scopes) (found : innermostLoop? scopes = some scope) :
    scope.depth ≤ scopes.length := by
  induction scopes with
  | nil => cases found
  | cons inner outer ih =>
    simp only [innermostLoop?, List.find?_cons] at found ih
    split at found
    · cases found
      simp [nested.1]
    · exact Nat.le_succ_of_le (ih nested.2 found)

end Scope

/-! ## Words that are left open -/

structure Pending (start : Nat) (holes : List Nat) (stop : Nat) : Prop where
  inside : ∀ hole ∈ holes, start ≤ hole ∧ hole + 2 ≤ stop
  apart : holes.Pairwise fun first second => first + 2 ≤ second ∨ second + 2 ≤ first

namespace Pending

variable {start middle stop : Nat} {holes later : List Nat}

theorem nil : Pending start [] stop :=
  ⟨by simp, .nil⟩

theorem append (second : Pending middle later stop) (first : Pending start holes middle)
    (lower : start ≤ middle) (upper : middle ≤ stop) : Pending start (later ++ holes) stop := by
  refine ⟨?_, List.pairwise_append.mpr ⟨second.apart, first.apart, ?_⟩⟩
  · intro hole present
    rcases List.mem_append.mp present with inLater | earlier
    · have bounds := second.inside hole inLater
      omega
    · have bounds := first.inside hole earlier
      omega
  · intro one inLater another earlier
    exact Or.inr (Nat.le_trans (first.inside another earlier).2 (second.inside one inLater).1)

theorem perm (pending : Pending start holes stop) (same : holes.Perm later) :
    Pending start later stop :=
  ⟨fun hole present => pending.inside hole (same.mem_iff.mpr present),
    same.pairwise pending.apart Or.symm⟩

theorem of_cons {hole : Nat} (pending : Pending start (hole :: holes) stop) :
    Pending start holes stop :=
  ⟨fun other present => pending.inside other (List.mem_cons_of_mem _ present),
    (List.pairwise_cons.mp pending.apart).2⟩

end Pending

namespace Chunk

variable {chunk final : Chunk Constant}

theorem Completes.rank_eq {holes : List Nat} {place : Nat} (completes : final.Completes chunk holes)
    (inside : place ≤ chunk.constants.size) : final.rank place = chunk.rank place := by
  simp only [rank]
  congr 1
  apply List.ext_getElem?
  intro index
  simp only [List.getElem?_take, Array.getElem?_toList]
  split
  · next below =>
    have bound : index < chunk.constants.size := by omega
    rw [completes.constants_eq index _ (Array.getElem?_eq_getElem bound),
      Array.getElem?_eq_getElem bound]
  · rfl

/-- Whether a jump to `target` is filled in. -/
def Leads (final : Chunk Constant) (offset target : Nat) : Prop :=
  offset + 2 ≤ target ∧ readWord? final.code offset = some (target - (offset + 2))

theorem Leads.jumps {opcode : Opcode} {offset target : Nat}
    (leads : final.Leads (offset + 1) target)
    (word : ∃ distance, readWord? final.code (offset + 1) = some distance ∧
      final.Has offset (opcode.instruction distance)) : final.Jumps opcode offset target := by
  rcases word with ⟨distance, read, found⟩
  rw [leads.2] at read
  cases read
  exact ⟨leads.1, found⟩

end Chunk

namespace Draft

variable {draft : Draft}

/-! ## Locals and scopes -/

/-- Whether locals and scopes are in order. -/
structure Scoped (draft : Draft) : Prop where
  initialized : ∀ entry ∈ draft.locals, ∃ depth, entry.depth = some depth ∧ depth ≤ draft.depth
  nested : Scope.Nested draft.scopes

/-- Whether a draft has come to a layout, the loop around it apart. -/
structure Fits (draft : Draft) (layout : Layout) : Prop where
  names_eq : draft.locals.map (·.name) = layout.names
  isOutermost_eq : layout.isOutermost = draft.scopes.isEmpty
  functions_eq : layout.functions = draft.functions
  kind_eq : layout.kind = draft.kind

/-- Whether the loops are the same. -/
def FitsLoop (draft : Draft) (layout : Layout) : Prop :=
  ∀ scope, Scope.innermostLoop? draft.scopes = some scope →
    ∃ loop, layout.loop = some loop ∧ loop.start = scope.loopStart ∧
      draft.locals.length = draft.countFrom (scope.depth + 1) + loop.height

/-- Whether a statement declares nothing unless there is a scope for it inside of the loop. -/
def Admits (draft : Draft) (statement : Statement) : Prop :=
  statement.declared ≠ [] → ∀ scope, Scope.innermostLoop? draft.scopes = some scope →
    scope.depth < draft.depth

section Locals

variable {draft before after : Draft} {depth : Nat}

theorem Scoped.stays (tidy : draft.Scoped) (shallow : draft.depth < depth) :
    ∀ entry ∈ draft.locals, entry.isOpenFrom depth = false := by
  intro entry present
  rcases tidy.initialized entry present with ⟨own, depthEq, bound⟩
  simp only [Local.isOpenFrom, depthEq, Option.any_some, decide_eq_false_iff_not]
  omega

theorem gone_of_declared (declared : List String) {own : Nat} (deep : depth ≤ own) :
    ∀ entry ∈ declared.map (⟨·, some own⟩ : String → Local), entry.isOpenFrom depth = true := by
  intro entry present
  rcases List.mem_map.mp present with ⟨name, _, rfl⟩
  exact decide_eq_true deep

theorem countFrom_dropFrom {added kept : List Local} (localsEq : draft.locals = added ++ kept)
    (gone : ∀ entry ∈ added, entry.isOpenFrom depth = true)
    (stays : ∀ entry ∈ kept, entry.isOpenFrom depth = false) :
    draft.countFrom depth = added.length ∧ (draft.dropFrom depth).locals = kept := by
  have keptAll : kept.takeWhile (·.isOpenFrom depth) = [] ∧
      kept.dropWhile (·.isOpenFrom depth) = kept := by
    cases kept with
    | nil => exact ⟨rfl, rfl⟩
    | cons entry kept => simp [stays entry List.mem_cons_self]
  constructor
  · rw [countFrom, localsEq, List.takeWhile_append_of_pos gone, keptAll.1, List.append_nil]
  · rw [dropFrom, localsEq, List.dropWhile_append_of_pos gone, keptAll.2]

theorem countFrom_eq_zero (tidy : draft.Scoped) (shallow : draft.depth < depth) :
    draft.countFrom depth = 0 :=
  (countFrom_dropFrom (List.nil_append _).symm (by simp) (tidy.stays shallow)).1

theorem countFrom_declared {declared : List String}
    (localsEq : after.locals = declared.map (⟨·, some before.depth⟩) ++ before.locals)
    (deeper : declared ≠ [] → depth ≤ before.depth) :
    after.countFrom depth = declared.length + before.countFrom depth := by
  by_cases empty : declared = []
  · rw [countFrom, localsEq, empty]
    exact (Nat.zero_add _).symm
  · rw [countFrom, localsEq,
      List.takeWhile_append_of_pos (gone_of_declared declared (deeper empty)), List.length_append,
      List.length_map]
    rfl

theorem Scoped.openScope (tidy : draft.Scoped) (kind : ScopeKind) :
    (draft.openScope kind).Scoped := by
  refine ⟨?_, rfl, tidy.nested⟩
  intro entry present
  rcases tidy.initialized entry present with ⟨own, depthEq, bound⟩
  exact ⟨own, depthEq, Nat.le_succ_of_le bound⟩

theorem Scoped.admits_openBlock (tidy : draft.Scoped) (statement : Statement) :
    (draft.openScope .block).Admits statement := by
  intro _ scope found
  exact Nat.lt_succ_of_le (tidy.nested.depth_le found)

end Locals

/-! ## Code -/

theorem functions_eq_countP (draft : Draft) :
    draft.functions = draft.chunk.constants.toList.countP (·.function?.isSome) := by
  rw [functions, Chunk.rank, List.take_of_length_le (by simp)]

theorem Valid.withScopes (valid : draft.Valid) (scopes : List Scope) :
    Valid { draft with scopes } :=
  { valid with }

/-- What is known of the code and the constants that are written between two drafts. -/
structure Coded (before after : Draft) (left : List Nat) (count : Nat)
    (claim : Chunk Constant → Prop) : Prop where
  valid : before.Valid → after.Valid
  grows : before.chunk.size ≤ after.chunk.size
  functions_eq : after.functions = before.functions + count
  pending : Pending before.chunk.size left after.chunk.size
  recovers : before.chunk.Recovers after.chunk left claim

/-- What a stretch of writing does. -/
structure Stretch (before after : Draft) (left breaks : List Nat) (declared : List String)
    (count : Nat) (claim : Chunk Constant → Prop) : Prop
    extends Coded before after left count claim where
  head_eq : after.head = before.head
  scopes_eq : after.scopes = Scope.addBreaks breaks before.scopes
  locals_eq : after.locals = declared.map (⟨·, some before.depth⟩) ++ before.locals

/-- What code that declares nothing adds. -/
abbrev Wrote (before after : Draft) (left : List Nat) (claim : Chunk Constant → Prop) : Prop :=
  Stretch before after left [] [] 0 claim

namespace Coded

variable {before middle after : Draft} {left later rest offsets : List Nat} {count more : Nat}
  {claim other : Chunk Constant → Prop}

theorem andThen (first : before.Coded middle left count claim)
    (second : middle.Coded after later more other) :
    before.Coded after (later ++ left) (count + more) fun final => claim final ∧ other final where
  valid := second.valid ∘ first.valid
  grows := Nat.le_trans first.grows second.grows
  functions_eq := by rw [second.functions_eq, first.functions_eq, Nat.add_assoc]
  pending := second.pending.append first.pending first.grows second.grows
  recovers := first.recovers.andThen second.recovers first.grows
    fun hole present => (first.pending.inside hole present).2

theorem imp (coded : before.Coded after left count claim)
    (implies : ∀ final, claim final → other final) : before.Coded after left count other :=
  { coded with recovers := coded.recovers.imp implies }

theorem patchJump {offset : Nat} (coded : before.Coded middle left count claim)
    (same : left.Perm (offset :: rest))
    (effect : Effect (Compile.patchJump offset) middle () after) :
    before.Coded after rest count (fun final =>
        claim final ∧ final.Leads offset middle.chunk.size) ∧
      middle.SameFrame after ∧ after.chunk.size = middle.chunk.size := by
  rcases effect_patchJump effect with ⟨inside, near, rfl⟩
  have pending := coded.pending.perm same
  rcases List.pairwise_cons.mp pending.apart with ⟨apart, _⟩
  have size : (middle.patch offset (middle.chunk.size - offset - 2)).chunk.size =
      middle.chunk.size := by
    simp [Draft.patch]
  refine ⟨⟨fun valid => (coded.valid valid).patch _ _,
    Nat.le_trans coded.grows (Nat.le_of_eq size.symm),
    coded.functions_eq, by rw [size]; exact pending.of_cons, ?_⟩, ⟨rfl, rfl, rfl⟩, size⟩
  refine (coded.recovers.patch inside near (pending.inside offset List.mem_cons_self).1
    (fun hole present => (apart hole present).symm) fun hole => same.mem_iff.mpr).imp ?_
  rintro final ⟨holds, word⟩
  rw [Nat.sub_sub] at word
  exact ⟨holds, inside, word⟩

theorem patchAll (coded : before.Coded middle left count claim) (same : left.Perm (offsets ++ rest))
    (effect : Effect (offsets.forM Compile.patchJump) middle () after) :
    before.Coded after rest count (fun final =>
        claim final ∧ ∀ offset ∈ offsets, final.Leads offset middle.chunk.size) ∧
      middle.SameFrame after ∧ after.chunk.size = middle.chunk.size := by
  induction offsets generalizing middle left claim with
  | nil =>
    rcases effect_pure effect with ⟨_, rfl⟩
    refine ⟨{ coded with pending := coded.pending.perm same, recovers := ?_ }, .refl _, rfl⟩
    intro final holes below completes
    have completesAll := completes.mono fun hole => (same.append_right holes).mem_iff.mpr
    rcases coded.recovers final holes below completesAll with ⟨completesBefore, holds⟩
    exact ⟨completesBefore, holds, by simp⟩
  | cons offset offsets ih =>
    rcases effect_bind effect with ⟨_, patched, patches, patchesRest⟩
    rcases coded.patchJump same patches with ⟨codedFirst, frame, size⟩
    rcases ih codedFirst (.refl _) patchesRest with ⟨codedRest, frameRest, sizeRest⟩
    refine ⟨codedRest.imp ?_, frame.trans frameRest, sizeRest.trans size⟩
    rintro final ⟨⟨holds, leads⟩, leadRest⟩
    rw [size] at leadRest
    exact ⟨holds, List.forall_mem_cons.mpr ⟨leads, leadRest⟩⟩

end Coded

namespace Stretch

variable {before middle after : Draft} {left later rest breaks breaks' : List Nat}
  {declared declared' : List String} {count count' : Nat} {claim other : Chunk Constant → Prop}
  {statement : Statement} {layout : Layout}

theorem depth_eq (stretch : Stretch before after left breaks declared count claim) :
    after.depth = before.depth := by
  simp [Draft.depth, stretch.scopes_eq]

theorem frame (stretch : Stretch before after left [] [] count claim) : before.SameFrame after :=
  ⟨stretch.head_eq, stretch.locals_eq, stretch.scopes_eq⟩

theorem andThen (first : Stretch before middle left breaks declared count claim)
    (second : Stretch middle after later breaks' declared' count' other) :
    Stretch before after (later ++ left) (breaks' ++ breaks) (declared' ++ declared)
      (count + count') fun final => claim final ∧ other final where
  toCoded := first.toCoded.andThen second.toCoded
  head_eq := second.head_eq.trans first.head_eq
  scopes_eq := by rw [second.scopes_eq, first.scopes_eq, Scope.addBreaks_append]
  locals_eq := by
    rw [second.locals_eq, first.locals_eq, first.depth_eq, List.map_append, List.append_assoc]

theorem imp (stretch : Stretch before after left breaks declared count claim)
    (implies : ∀ final, claim final → other final) :
    Stretch before after left breaks declared count other :=
  { stretch with recovers := stretch.recovers.imp implies }

theorem cast (stretch : Stretch before after left breaks declared count claim)
    (leftEq : left = later) (breaksEq : breaks = breaks') (declaredEq : declared = declared')
    (countEq : count = count') : Stretch before after later breaks' declared' count' claim := by
  subst leftEq breaksEq declaredEq countEq
  exact stretch

theorem patchJump {offset : Nat} (stretch : Stretch before middle left breaks declared count claim)
    (same : left.Perm (offset :: rest))
    (effect : Effect (Compile.patchJump offset) middle () after) :
    Stretch before after rest breaks declared count (fun final =>
        claim final ∧ final.Leads offset middle.chunk.size) ∧
      after.chunk.size = middle.chunk.size := by
  rcases stretch.toCoded.patchJump same effect with ⟨coded, frame, size⟩
  exact ⟨⟨coded, frame.head_eq.trans stretch.head_eq, frame.scopes_eq.trans stretch.scopes_eq,
    frame.locals_eq.trans stretch.locals_eq⟩, size⟩

theorem keepsScoped (stretch : Stretch before after left breaks declared count claim)
    (tidy : before.Scoped) : after.Scoped := by
  constructor
  · intro entry present
    rw [stretch.depth_eq]
    rw [stretch.locals_eq] at present
    rcases List.mem_append.mp present with inAdded | older
    · rcases List.mem_map.mp inAdded with ⟨name, _, rfl⟩
      exact ⟨before.depth, rfl, Nat.le_refl _⟩
    · exact tidy.initialized entry older
  · rw [stretch.scopes_eq]
    exact tidy.nested.addBreaks breaks

theorem fits
    (stretch : Stretch before after left breaks (layout.binds statement) statement.functionCount
      claim) (fits : before.Fits layout) : after.Fits (layout.after statement) := by
  constructor
  · rw [stretch.locals_eq, List.map_append, List.map_map, fits.names_eq]
    exact congrArg (· ++ layout.names) (List.map_id _)
  · have sameLength := congrArg List.length stretch.scopes_eq
    simp only [Scope.length_addBreaks] at sameLength
    rw [Layout.after, fits.isOutermost_eq, Bool.eq_iff_iff, List.isEmpty_iff, List.isEmpty_iff,
      ← List.length_eq_zero_iff, ← List.length_eq_zero_iff, sameLength]
  · simp only [Layout.after, fits.functions_eq, stretch.functions_eq]
  · simp only [Layout.after, fits.kind_eq, Draft.kind_eq_of_head_eq stretch.head_eq]

theorem admits (stretch : Stretch before after left breaks declared count claim)
    (admits : before.Admits statement) : after.Admits statement := by
  intro declares scope found
  rw [stretch.scopes_eq] at found
  rcases Scope.innermostLoop?_addBreaks found with ⟨same, foundBefore, depthEq, _⟩
  rw [depthEq, stretch.depth_eq]
  exact admits declares same foundBefore

theorem fitsLoop
    (stretch : Stretch before after left breaks (layout.binds statement) statement.functionCount
      claim) (admits : before.Admits statement) (fits : before.FitsLoop layout) :
    after.FitsLoop (layout.after statement) := by
  intro scope found
  rw [stretch.scopes_eq] at found
  rcases Scope.innermostLoop?_addBreaks found with ⟨same, foundBefore, depthEq, startEq⟩
  rcases fits same foundBefore with ⟨loop, loopEq, loopStart, height⟩
  refine ⟨loop, loopEq, by rw [loopStart, startEq], ?_⟩
  have deeper : layout.binds statement ≠ [] → same.depth + 1 ≤ before.depth := by
    intro binds
    refine admits ?_ same foundBefore
    intro none
    exact binds (by simp [Layout.binds, none])
  rw [depthEq, countFrom_declared stretch.locals_eq deeper, stretch.locals_eq, List.length_append,
    List.length_map, height, Nat.add_assoc]

end Stretch

/-! ## Single instructions and constants -/

namespace Wrote

variable {before after : Draft} {opcode : Opcode} {constant : Constant}

theorem refl (draft : Draft) : Wrote draft draft [] fun _ => True :=
  ⟨⟨id, Nat.le_refl _, rfl, .nil, .refl _⟩, rfl, rfl, rfl⟩

theorem write (before : Draft) {operand : Nat} (line : Nat)
    (small : operand < Nat.pow 256 opcode.operandSize) :
    Wrote before (before.write opcode operand line) [] fun final =>
      final.Has before.chunk.size (opcode.instruction operand) :=
  ⟨⟨fun valid => valid.write opcode operand line, by simp [Draft.write], rfl, .nil, .write small⟩,
    rfl, rfl, rfl⟩

theorem emit (bare : opcode.operandSize = 0)
    (effect : Effect (Compile.emit opcode) before () after) :
    Wrote before after [] (fun final =>
      final.Has before.chunk.size (opcode.instruction 0)) ∧
      after.chunk.size = before.chunk.size + 1 := by
  rcases effect_emit bare effect with ⟨line, rfl⟩
  exact ⟨write _ _ (by simp [bare]), by simp [Draft.write, Opcode.size, bare]⟩

theorem emitWith {operand : UInt8} (short : opcode.operandSize = 1)
    (effect : Effect (Compile.emitWith opcode operand) before () after) :
    Wrote before after [] (fun final =>
      final.Has before.chunk.size (opcode.instruction operand.toNat)) ∧
      after.chunk.size = before.chunk.size + 2 := by
  rcases effect_emitWith short effect with ⟨line, rfl⟩
  exact ⟨write _ _ (by rw [short]; exact operand.toNat_lt),
    by simp [Draft.write, Opcode.size, short]⟩

theorem emitLoop {start : Nat} (effect : Effect (Compile.emitLoop start) before () after) :
    Wrote before after [] (fun final => final.LoopsTo before.chunk.size start) ∧
      after.chunk.size = before.chunk.size + 3 := by
  rcases effect_emitLoop effect with ⟨inside, near, line, rfl⟩
  refine ⟨(write _ _ (by simpa [Opcode.operandSize] using near)).imp ?_, by simp [Draft.write]; rfl⟩
  intro final found
  exact ⟨inside, found⟩

theorem emitJump {offset : Nat} (wide : opcode.operandSize = 2)
    (effect : Effect (Compile.emitJump opcode) before offset after) :
    Wrote before after [offset] (fun final => ∃ distance,
      Chunk.readWord? final.code offset = some distance ∧
      final.Has before.chunk.size (opcode.instruction distance)) ∧
      offset = before.chunk.size + 1 ∧ after.chunk.size = before.chunk.size + 3 := by
  rcases effect_emitJump wide effect with ⟨rfl, line, rfl⟩
  have size : (before.write opcode placeholder line).chunk.size = before.chunk.size + 3 := by
    simp [Draft.write, Opcode.size, wide]
  refine ⟨⟨⟨fun valid => valid.write _ _ _, by omega, rfl, ⟨?_, List.pairwise_singleton _ _⟩,
    .jump wide⟩, rfl, rfl, rfl⟩, rfl, size⟩
  simp only [List.mem_singleton, forall_eq]
  omega

theorem pool (room : before.chunk.constants.size < 256) (plain : constant.function? = none) :
    Wrote before (before.pool constant) [] fun final =>
      final.constants[before.chunk.constants.size]? = some constant := by
  refine ⟨⟨fun valid => valid.pool room ?_, Nat.le_refl _, ?_, .nil, .push⟩, rfl, rfl, rfl⟩
  · intro function same
    rw [same] at plain
    cases plain
  · simp [functions_eq_countP, Draft.pool, plain]

theorem emitConstant (plain : constant.function? = none)
    (effect : Effect (Compile.emitConstant constant) before () after) :
    Wrote before after [] (fun final => ∃ place,
      final.Has before.chunk.size (.constant place) ∧
      final.constants[place]? = some constant) ∧ after.chunk.size = before.chunk.size + 2 := by
  rcases effect_emitConstant effect with ⟨room, line, rfl⟩
  have small : before.chunk.constants.size < Nat.pow 256 Opcode.constant.operandSize := room
  refine ⟨((pool room plain).andThen (write _ line small)).imp ?_,
    by simp [Draft.write, Draft.pool]; rfl⟩
  rintro final ⟨holds, found⟩
  exact ⟨_, found, holds⟩

theorem emitAll {opcodes : List Opcode} (bare : ∀ opcode ∈ opcodes, opcode.operandSize = 0)
    (effect : Effect (opcodes.forM Compile.emit) before () after) :
    Wrote before after [] fun final => final.HasAll opcodes before.chunk.size after.chunk.size := by
  induction opcodes generalizing before with
  | nil =>
    rcases effect_pure effect with ⟨_, rfl⟩
    exact (refl _).imp fun final _ => rfl
  | cons opcode opcodes ih =>
    rcases effect_bind effect with ⟨_, middle, emits, rest⟩
    rcases emit (bare opcode (by simp)) emits with ⟨wrote, size⟩
    have wroteRest := ih (fun other present => bare other (by simp [present])) rest
    refine (wrote.andThen wroteRest).imp ?_
    rintro final ⟨found, foundRest⟩
    rw [size] at foundRest
    exact ⟨found, foundRest⟩

theorem emitPops_eq (count : Nat) :
    Compile.emitPops count = (List.replicate count .pop).forM Compile.emit := by
  induction count with
  | zero => rfl
  | succ count ih =>
    rw [Compile.emitPops, ih]
    rfl

theorem emitPops {count : Nat} (effect : Effect (Compile.emitPops count) before () after) :
    Wrote before after [] fun final =>
      Statement.PopsAt final count before.chunk.size after.chunk.size := by
  rw [emitPops_eq] at effect
  exact emitAll (fun opcode present => List.eq_of_mem_replicate present ▸ rfl) effect

end Wrote

/-! ## Closing a scope -/

theorem Valid.openScope (valid : draft.Valid) (kind : ScopeKind) : (draft.openScope kind).Valid :=
  { valid with }

theorem Coded.closeScope {before done after : Draft} {kind : ScopeKind}
    {left rest breaks : List Nat}
    {declared : List String} {count : Nat} {claim : Chunk Constant → Prop} {scope : Scope}
    (coded : (before.openScope kind).Coded done left count claim) (tidy : before.Scoped)
    (headEq : done.head = before.head)
    (scopesEq : done.scopes = scope :: Scope.addBreaks breaks before.scopes)
    (depthEq : scope.depth = before.depth + 1)
    (localsEq : done.locals = declared.map (⟨·, some (before.depth + 1)⟩) ++ before.locals)
    (same : left.Perm (scope.breaks ++ rest)) (effect : Effect closeScope done () after) :
    before.Stretch after rest breaks [] count fun final => claim final ∧
      (∀ jump ∈ scope.breaks, final.Leads jump done.chunk.size) ∧
      Statement.PopsAt final declared.length done.chunk.size after.chunk.size := by
  rcases effect_bind effect with ⟨compiler, _, got, effect⟩
  rcases effect_get got with ⟨rfl, rfl⟩
  rw [scopesEq] at effect
  rcases effect_bind effect with ⟨_, unscoped, opens, effect⟩
  rcases effect_bind effect with ⟨_, patched, patches, effect⟩
  rcases effect_bind effect with ⟨compiler', _, got, effect⟩
  rcases effect_get got with ⟨rfl, rfl⟩
  rcases effect_bind effect with ⟨_, dropped, drops, effect⟩
  rcases effect_bind effect with ⟨_, popped, pops, tells⟩
  have droppedEq := effect_onDraft drops
  have unscopedEq := effect_onDraft opens
  rcases effect_modify tells with ⟨told, rfl, rfl⟩
  subst unscopedEq
  subst droppedEq
  have codedOuter : (before.openScope kind).Coded
      { compiler.draft with scopes := Scope.addBreaks breaks before.scopes } left count claim :=
    { coded with valid := fun valid => (coded.valid valid).withScopes _ }
  rcases codedOuter.patchAll (same.trans ((List.reverse_perm _).symm.append_right rest)) patches
    with ⟨codedPatched, frame, size⟩
  have codedDropped : (before.openScope kind).Coded (compiler'.draft.dropFrom scope.depth) rest
      count _ :=
    { codedPatched with
      valid := fun valid =>
        { codedPatched.valid valid with
          locals_le := Nat.le_trans (List.dropWhile_sublist _).length_le
            (codedPatched.valid valid).locals_le } }
  rw [← depthEq] at localsEq
  have closing : compiler'.draft.countFrom scope.depth = _ ∧ _ :=
    countFrom_dropFrom (frame.locals_eq.trans localsEq) (gone_of_declared declared (Nat.le_refl _))
      (tidy.stays (by omega))
  have wrotePops := Wrote.emitPops pops
  have whole := codedDropped.andThen wrotePops.toCoded
  refine ⟨{ whole.imp ?_ with valid := fun valid => whole.valid (valid.openScope kind) },
    (wrotePops.head_eq.trans frame.head_eq).trans headEq,
    wrotePops.scopes_eq.trans frame.scopes_eq, wrotePops.locals_eq.trans closing.2⟩
  rintro final ⟨⟨holds, leads⟩, popsFound⟩
  refine ⟨holds, fun jump present => leads jump (List.mem_reverse.mpr present), ?_⟩
  have found : Statement.PopsAt final (compiler'.draft.countFrom scope.depth)
      compiler'.draft.chunk.size told.draft.chunk.size := popsFound
  rw [closing.1, List.length_map, size] at found
  exact found

end Draft

end StackScript
