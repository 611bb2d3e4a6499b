import StackScript.Proofs.Stock

/-!
# Every action keeps the books

What the actions of the compiler do to the instructions and to the pool of the function that is
being written. Nothing happens meanwhile to the functions around it.
-/

namespace StackScript

open Compile (Effect forwardJumps Known Mode Built Quiet)

/-- The place of a name that is declared. -/
def Binding.places : Binding → List Nat
  | .slot => []
  | .global index => [index.toNat]

/-- The place of a name that is used. -/
def Reference.places : Reference → List Nat
  | .slot _ => []
  | .global index => [index.toNat]

namespace Compile

variable {α β : Type} {jumps taken : List Nat}

theorem effect_nameConstant_of_known {name : String} {place index : UInt8} {before after : Draft}
    (known : before.names[name]? = some index)
    (effect : Effect (nameConstant name) before place after) : place = index ∧ after = before := by
  rcases effect_bind effect with ⟨compiler, _, got, effect⟩
  rcases effect_get got with ⟨rfl, rfl⟩
  rw [known] at effect
  rcases effect_pure effect with ⟨rfl, rfl⟩
  exact ⟨rfl, rfl⟩

/--
Whether an action keeps the books: it may fill in jumps, takes pending names and gives others.
-/
def Keeps (jumps taken : List Nat) (action : Compile α) (given : α → List Nat) : Prop :=
  ∀ (compiler : Compiler) (operations : List Operation) (pending : List Nat),
    compiler.draft.Kept operations (taken ++ pending) → (∀ jump ∈ jumps, Hole operations jump) →
    ∀ (value : α) (after : Compiler), action compiler = .ok value after →
      ∃ later, after.draft.Kept later (given value ++ pending) ∧
        operations.map Prod.fst <+: later.map Prod.fst ∧ after.enclosing = compiler.enclosing

/-- Whether an action keeps the books and has nothing to do with pending names. -/
abbrev KeepsAll (jumps : List Nat) (action : Compile α) : Prop :=
  Keeps jumps [] action fun _ => []

namespace Keeps

variable {given : α → List Nat} {action : Compile α} {opcode : Opcode} {body : Compile Unit}
  {next : Compiler → Compile α}

theorem bind {given' : β → List Nat} {next : α → Compile β} (first : Keeps jumps taken action given)
    (second : ∀ value, Keeps jumps (given value) (next value) given') :
    Keeps jumps taken (action >>= next) given' := by
  intro compiler operations pending kept holes result after ran
  rcases bind_eq_ok.mp ran with ⟨value, middle, ranFirst, ranSecond⟩
  rcases first compiler operations pending kept holes value middle ranFirst with
    ⟨reached, keptMiddle, grown, enclosingEq⟩
  rcases second value middle reached pending keptMiddle
    (fun jump present => (holes jump present).mono grown) result after ranSecond with
    ⟨later, keptAfter, grownMore, enclosingEq'⟩
  exact ⟨later, keptAfter, grown.trans grownMore, enclosingEq'.trans enclosingEq⟩

theorem frame (keeps : KeepsAll jumps action) (taken : List Nat) :
    Keeps jumps taken action fun _ => taken := by
  intro compiler operations pending kept holes
  exact keeps compiler operations (taken ++ pending) kept holes

theorem ofFailing (fails : ∀ compiler value after, action compiler ≠ .ok value after) :
    Keeps jumps taken action given :=
  fun compiler _ _ _ _ value after ran => absurd ran (fails compiler value after)

theorem fail (kind : CompileError.Kind) : Keeps jumps taken (fail kind) given :=
  ofFailing fun _ _ _ => fail_ne_ok

theorem failAhead (kind : CompileError.Kind) : Keeps jumps taken (failAhead kind) given :=
  ofFailing fun _ _ _ => failAhead_ne_ok

theorem reading (givenEq : ∀ value, given value = taken)
    (same : ∀ compiler value after, action compiler = .ok value after →
      after.draft = compiler.draft ∧ after.enclosing = compiler.enclosing) :
    Keeps jumps taken action given := by
  intro compiler operations pending kept _ value after ran
  rcases same compiler value after ran with ⟨draftEq, enclosingEq⟩
  refine ⟨operations, ?_, List.prefix_refl _, enclosingEq⟩
  rw [draftEq, givenEq]
  exact kept

theorem give (value : α) (givenEq : given value = taken) :
    Keeps jumps taken (Pure.pure value) given := by
  intro compiler operations pending kept _ result after ran
  rcases pure_eq_ok.mp ran with ⟨rfl, rfl⟩
  rw [← givenEq] at kept
  exact ⟨operations, kept, List.prefix_refl _, rfl⟩

theorem pure (value : α) : KeepsAll jumps (pure value : Compile α) :=
  give value rfl

theorem inspect (each : ∀ compiler, Keeps jumps taken (next compiler) given) :
    Keeps jumps taken (get >>= next) given :=
  bind (reading (fun _ => rfl) fun _ _ _ ran => by
    rw [(get_eq_ok.mp ran).2]
    exact ⟨rfl, rfl⟩) each

theorem inspectScopes
    (each : ∀ compiler, Keeps (compiler.draft.scopes.flatMap (·.breaks) ++ jumps) taken
      (next compiler) given) : Keeps jumps taken (get >>= next) given := by
  intro compiler operations pending kept holes value after ran
  apply each compiler compiler operations pending kept _ value after ran
  intro jump present
  rcases List.mem_append.mp present with leaves | known
  · rcases List.mem_flatMap.mp leaves with ⟨scope, present', left⟩
    exact kept.breaks scope present' jump left
  · exact holes jump known

theorem writing (quiet : Quiet Compiler.SamePlace action)
    (each : ∀ (before : Draft) (value : α) (after : Draft), Effect action before value after →
      ∀ (operations : List Operation) (pending : List Nat),
        before.Kept operations (taken ++ pending) → (∀ jump ∈ jumps, Hole operations jump) →
        ∃ later, after.Kept later (given value ++ pending) ∧
          operations.map Prod.fst <+: later.map Prod.fst) : Keeps jumps taken action given := by
  intro compiler operations pending kept holes value after ran
  rcases each compiler.draft value after.draft ⟨compiler, after, ran, rfl, rfl⟩ operations pending
    kept holes with ⟨later, keptAfter, grown⟩
  exact ⟨later, keptAfter, grown, (quiet.samePlace ran).enclosing_eq⟩

/-! ### Writing -/

theorem emit (bare : opcode.operandSize = 0) : KeepsAll jumps (emit opcode) := by
  apply writing (.emit opcode)
  intro before _ after effect operations pending kept _
  rcases effect_emit bare effect with ⟨line, rfl⟩
  have placeless : (opcode.instruction 0).Placeless := by
    cases opcode <;> first | exact ⟨rfl, rfl⟩ | cases bare
  exact ⟨_, kept.write (by rw [bare]; decide) placeless line, by simp⟩

theorem emitWith (operand : UInt8) (short : opcode.operandSize = 1)
    (placeless : (opcode.instruction operand.toNat).Placeless) :
    KeepsAll jumps (emitWith opcode operand) := by
  apply writing (.emitWith opcode operand)
  intro before _ after effect operations pending kept _
  rcases effect_emitWith short effect with ⟨line, rfl⟩
  refine ⟨_, kept.write ?_ placeless line, by simp⟩
  rw [short]
  exact operand.toNat_lt

theorem emitGlobal (place : UInt8) (short : opcode.operandSize = 1)
    (loadsNone : (opcode.instruction place.toNat).loadedPlace? = none)
    (accesses : (opcode.instruction place.toNat).globalPlace? = some place.toNat) :
    Keeps jumps [place.toNat] (Compile.emitWith opcode place) fun _ => [] := by
  apply writing (.emitWith opcode place)
  intro before _ after effect operations pending kept _
  rcases effect_emitWith short effect with ⟨line, rfl⟩
  refine ⟨_, kept.access ?_ loadsNone accesses line, by simp⟩
  rw [short]
  exact place.toNat_lt

theorem emitPops (count : Nat) : KeepsAll jumps (emitPops count) := by
  induction count with
  | zero => exact pure ()
  | succ count ih => exact bind (emit rfl) fun _ => ih

theorem emitReturn : KeepsAll jumps emitReturn :=
  bind (emit rfl) fun _ => emit rfl

theorem emitConstant {constant : Constant} (plain : ∀ function, constant ≠ .function function) :
    KeepsAll jumps (emitConstant constant) := by
  apply writing (.emitConstant constant)
  intro before _ after effect operations pending kept _
  rcases effect_emitConstant effect with ⟨room, line, rfl⟩
  exact ⟨_, kept.load (.of_plain plain) (.of_plain plain) room, by simp⟩

theorem nameConstant (name : String) :
    Keeps jumps [] (nameConstant name) fun place => [place.toNat] := by
  apply writing (.nameConstant name)
  intro before place after effect operations pending kept _
  cases known : before.names[name]? with
  | some index =>
    rcases effect_nameConstant_of_known known effect with ⟨rfl, rfl⟩
    exact ⟨operations, kept.reuse known, List.prefix_refl _⟩
  | none =>
    rcases effect_nameConstant effect with ⟨found, _⟩ | ⟨_, placeEq, rfl⟩
    · rw [known] at found
      cases found
    · exact ⟨operations, kept.intern known placeEq, List.prefix_refl _⟩

theorem jump {next : Nat → Compile α} (forward : opcode ∈ forwardJumps)
    (rest : ∀ offset, Keeps (offset :: jumps) taken (next offset) given) :
    Keeps jumps taken (emitJump opcode >>= next) given := by
  intro compiler operations pending kept holes result after ran
  rcases bind_eq_ok.mp ran with ⟨offset, middle, ranJump, ranRest⟩
  rcases effect_emitJump (wide_of_forward forward) ⟨compiler, middle, ranJump, rfl, rfl⟩ with
    ⟨offsetEq, line, draftEq⟩
  have written := kept.write (by rw [wide_of_forward forward]; decide)
    (placeless_of_forward forward placeholder) line
  rw [← draftEq] at written
  have unfilled : ∀ jump ∈ offset :: jumps, Hole (operations ++ [(opcode, placeholder)]) jump := by
    intro jump present
    rcases List.mem_cons.mp present with rfl | earlier
    · rw [offsetEq, kept.size_eq]
      exact .of_last operations placeholder forward
    · exact (holes jump earlier).mono (by simp)
  rcases rest offset middle _ pending written unfilled result after ranRest with
    ⟨later, keptAfter, grown, enclosingEq⟩
  have quiet := (Quiet.emitJump opcode).samePlace ranJump
  exact ⟨later, keptAfter, .trans (by simp) grown, enclosingEq.trans quiet.enclosing_eq⟩

theorem patchJump {offset : Nat} (known : offset ∈ jumps) : KeepsAll jumps (patchJump offset) := by
  apply writing (.patchJump offset)
  intro before _ after effect operations pending kept holes
  rcases effect_patchJump effect with ⟨inside, near, rfl⟩
  exact kept.patch (holes offset known) near

theorem patchAll {offsets : List Nat} (known : ∀ offset ∈ offsets, offset ∈ jumps) :
    KeepsAll jumps (offsets.forM Compile.patchJump) := by
  induction offsets with
  | nil => exact pure ()
  | cons offset rest ih =>
    apply bind (patchJump (known offset List.mem_cons_self))
    intro _
    exact ih fun other present => known other (List.mem_cons_of_mem offset present)

theorem emitLoop (start : Nat) : KeepsAll jumps (emitLoop start) := by
  apply writing (.emitLoop start)
  intro before _ after effect operations pending kept _
  rcases effect_emitLoop effect with ⟨inside, near, line, rfl⟩
  exact ⟨_, kept.write near ⟨rfl, rfl⟩ line, by simp⟩

/-! ### Reading -/

theorem lookahead : KeepsAll jumps lookahead :=
  reading (fun _ => rfl) fun _ _ _ ran => by
    rw [(lookahead_eq_ok.mp ran).2]
    exact ⟨rfl, rfl⟩

theorem lastLexeme : KeepsAll jumps lastLexeme :=
  reading (fun _ => rfl) fun _ _ _ ran => by
    rw [(lastLexeme_eq_ok.mp ran).2]
    exact ⟨rfl, rfl⟩

theorem codeSize : KeepsAll jumps codeSize :=
  reading (fun _ => rfl) fun _ _ _ ran => by
    rw [(codeSize_eq_ok.mp ran).2]
    exact ⟨rfl, rfl⟩

theorem advance : KeepsAll jumps advance :=
  reading (fun _ => rfl) fun compiler _ _ ran => by
    rw [advance_eq_ok ran, Compiler.shift]
    split <;> exact ⟨rfl, rfl⟩

theorem accept (kind : Token.Kind) : KeepsAll jumps (accept kind) := by
  apply bind lookahead
  intro found
  split
  · exact bind advance fun _ => pure true
  · exact pure false

theorem expect (kind : Token.Kind) (expectation : Expectation) :
    KeepsAll jumps (expect kind expectation) := by
  apply bind lookahead
  intro found
  split
  · exact advance
  · exact failAhead _

theorem nested (inside : KeepsAll jumps body) : KeepsAll jumps (nested body) := by
  intro compiler operations pending kept holes value after ran
  rcases nested_eq_ok.mp ran with ⟨_, reached, ranInside, rfl⟩
  exact inside { compiler with nesting := compiler.nesting + 1 } operations pending kept holes ()
    reached ranInside

theorem repeatWithin {more : Compile Bool} {round : Compile Unit} (asks : KeepsAll jumps more)
    (does : KeepsAll jumps round) (bound : List Token) :
    KeepsAll jumps (repeatWithin more round bound) := by
  induction bound with
  | nil => exact bind asks fun _ => pure ()
  | cons _ rest ih =>
    apply bind asks
    intro goesOn
    split
    · exact bind does fun _ => ih
    · exact pure ()

theorem separatedWithin {item : α → Compile α} (each : ∀ state, KeepsAll jumps (item state))
    (bound : List Token) (state : α) : KeepsAll jumps (separatedWithin item bound state) := by
  induction bound generalizing state with
  | nil => exact each state
  | cons _ rest ih =>
    apply bind (each state)
    intro reached
    apply bind (accept .comma)
    intro goesOn
    split
    · exact ih reached
    · exact pure reached

/-! ### Scopes and variables -/

theorem reframe {change : Draft → Draft} (chunkEq : ∀ draft, (change draft).chunk = draft.chunk)
    (namesEq : ∀ draft, (change draft).names = draft.names)
    (breaks : ∀ draft, ∀ scope ∈ (change draft).scopes, ∀ jump ∈ scope.breaks,
      jump ∈ jumps ∨ ∃ other ∈ draft.scopes, jump ∈ other.breaks) :
    KeepsAll jumps (modify (·.onDraft change)) := by
  intro compiler operations pending kept holes _ after ran
  rw [← modify_eq_ok.mp ran]
  refine ⟨operations, kept.reframe (chunkEq _) (namesEq _) ?_, List.prefix_refl _, rfl⟩
  intro scope present jump left
  rcases breaks _ scope present jump left with known | ⟨other, present', left'⟩
  · exact holes jump known
  · exact kept.breaks other present' jump left'

theorem openScope (kind : ScopeKind) : KeepsAll jumps (openScope kind) := by
  refine reframe (fun _ => rfl) (fun _ => rfl) ?_
  intro draft scope present jump left
  rcases List.mem_cons.mp present with rfl | outer
  · exact absurd left List.not_mem_nil
  · exact Or.inr ⟨scope, outer, left⟩

theorem tell (event : Compiler → Compiler.Event) :
    KeepsAll jumps (modify fun compiler => compiler.tell (event compiler)) :=
  reading (fun _ => rfl) fun _ _ _ ran => by
    rw [← modify_eq_ok.mp ran]
    exact ⟨rfl, rfl⟩

theorem closeScope : KeepsAll jumps closeScope := by
  apply inspectScopes
  intro compiler
  cases compiler.draft.scopes with
  | nil => exact pure ()
  | cons scope outer =>
    refine bind (reframe (fun _ => rfl) (fun _ => rfl) ?_) fun _ => ?_
    · intro draft other present jump left
      refine Or.inl (List.mem_append_left _ ?_)
      exact List.mem_flatMap.mpr ⟨other, List.mem_cons_of_mem scope present, left⟩
    · refine bind (patchAll ?_) fun _ => ?_
      · intro jump left
        refine List.mem_append_left _ ?_
        exact List.mem_flatMap.mpr ⟨scope, List.mem_cons_self, List.mem_reverse.mp left⟩
      · apply inspect
        intro closing
        refine bind (reframe (fun _ => rfl) (fun _ => rfl) ?_) fun _ => ?_
        · exact fun _ other present jump left => Or.inr ⟨other, present, left⟩
        · exact bind (emitPops _) fun _ => tell _

theorem declareLocal : KeepsAll jumps declareLocal := by
  apply bind lastLexeme
  intro name
  apply inspect
  intro compiler
  dsimp only
  split
  · exact fail _
  · split
    · exact fail _
    · refine reframe (fun _ => rfl) (fun _ => rfl) ?_
      exact fun _ scope present jump left => Or.inr ⟨scope, present, left⟩

theorem declare (expectation : Expectation) :
    Keeps jumps [] (declare expectation) Binding.places := by
  apply bind (expect _ _)
  intro _
  apply inspect
  intro compiler
  split
  · exact bind declareLocal fun _ => give Binding.slot rfl
  · apply bind lastLexeme
    intro name
    exact bind (nameConstant name) fun index => give (Binding.global index) rfl

theorem makeVisible (binding : Binding) : KeepsAll jumps (makeVisible binding) := by
  cases binding with
  | slot =>
    refine reframe (fun _ => rfl) (fun _ => rfl) ?_
    exact fun _ scope present jump left => Or.inr ⟨scope, present, left⟩
  | global index => exact pure ()

theorem define (binding : Binding) : Keeps jumps binding.places (define binding) fun _ => [] := by
  cases binding with
  | slot => exact makeVisible .slot
  | global index => exact emitGlobal index rfl rfl rfl

theorem resolve (name : String) : Keeps jumps [] (resolve name) Reference.places := by
  apply inspect
  intro compiler
  rcases Local.resolve? name compiler.draft.locals with _ | ⟨slot, entry, _ | depth⟩
  · exact bind (nameConstant name) fun index => give (Reference.global index) rfl
  · exact fail _
  · exact give (Reference.slot (UInt8.ofNat slot)) rfl

theorem emitGet (reference : Reference) :
    Keeps jumps reference.places reference.emitGet fun _ => [] := by
  cases reference with
  | slot number => exact emitWith number rfl ⟨rfl, rfl⟩
  | global index => exact emitGlobal index rfl rfl rfl

theorem emitSet (reference : Reference) :
    Keeps jumps reference.places reference.emitSet fun _ => [] := by
  cases reference with
  | slot number => exact emitWith number rfl ⟨rfl, rfl⟩
  | global index => exact emitGlobal index rfl rfl rfl

theorem variableUse {inner : Parser} (value : KeepsAll jumps inner.expression)
    (assignable : Bool) : KeepsAll jumps (variableUse inner assignable) := by
  apply bind lastLexeme
  intro name
  apply bind (resolve name)
  intro reference
  apply bind (frame lookahead _)
  intro kind
  split
  · apply bind (frame advance _)
    intro _
    exact bind (frame value _) fun _ => emitSet reference
  · exact emitGet reference

theorem setLoopStart (start : Nat) :
    KeepsAll jumps (modify (·.onDraft fun draft =>
      { draft with scopes := Scope.setLoopStart start draft.scopes })) := by
  refine reframe (fun _ => rfl) (fun _ => rfl) ?_
  intro draft scope present jump left
  dsimp only at present
  cases scopesEq : draft.scopes with
  | nil =>
    rw [scopesEq] at present
    cases present
  | cons innermost outer =>
    rw [scopesEq] at present
    rcases List.mem_cons.mp present with rfl | inOuter
    · exact Or.inr ⟨innermost, List.mem_cons_self, left⟩
    · exact Or.inr ⟨scope, List.mem_cons_of_mem _ inOuter, left⟩

theorem mem_breaks_addBreak {scopes : List Scope} {scope : Scope} {jump left : Nat}
    (present : scope ∈ Scope.addBreak jump scopes) (leaves : left ∈ scope.breaks) :
    left = jump ∨ ∃ other ∈ scopes, left ∈ other.breaks := by
  induction scopes with
  | nil => cases present
  | cons innermost outer ih =>
    rw [Scope.addBreak] at present
    split at present
    · rcases List.mem_cons.mp present with rfl | inOuter
      · rcases List.mem_cons.mp leaves with rfl | earlier
        · exact Or.inl rfl
        · exact Or.inr ⟨innermost, List.mem_cons_self, earlier⟩
      · exact Or.inr ⟨scope, List.mem_cons_of_mem _ inOuter, leaves⟩
    · rcases List.mem_cons.mp present with rfl | inOuter
      · exact Or.inr ⟨scope, List.mem_cons_self, leaves⟩
      · rcases ih inOuter with same | ⟨other, present', leaves'⟩
        · exact Or.inl same
        · exact Or.inr ⟨other, List.mem_cons_of_mem _ present', leaves'⟩

theorem breakStatement : KeepsAll jumps breakStatement := by
  apply inspect
  intro compiler
  split
  · exact fail _
  · apply bind (expect _ _)
    intro _
    apply inspect
    intro closing
    apply bind (emitPops _)
    intro _
    apply jump (by simp [forwardJumps])
    intro offset
    refine reframe (fun _ => rfl) (fun _ => rfl) ?_
    intro draft scope present other left
    rcases mem_breaks_addBreak present left with rfl | before
    · exact Or.inl List.mem_cons_self
    · exact Or.inr before

theorem continueStatement : KeepsAll jumps continueStatement := by
  apply inspect
  intro compiler
  split
  · exact fail _
  · apply bind (expect _ _)
    intro _
    apply inspect
    intro closing
    exact bind (emitPops _) fun _ => emitLoop _

/-! ### Functions -/

theorem kept_begun (name : String) : ((Draft.named name).openScope .function).Kept [] [] := by
  apply Draft.kept_of_empty rfl rfl
  intro scope present
  rcases List.mem_cons.mp present with rfl | none
  · rfl
  · exact absurd none List.not_mem_nil

theorem function (inside : KeepsAll [] body) :
    KeepsAll jumps (do
      beginFunction
      body
      Compile.emitReturn
      Compile.emitConstant (.function (← endFunction))) := by
  intro compiler operations pending kept holes value after ran
  rcases bind_eq_ok.mp ran with ⟨_, begun, ranBegin, ran⟩
  rcases bind_eq_ok.mp ran with ⟨_, done, ranBody, ran⟩
  rcases bind_eq_ok.mp ran with ⟨_, returned, ranReturn, ran⟩
  rcases bind_eq_ok.mp ran with ⟨function, ended, ranEnd, ranLoad⟩
  cases ranBegin
  rcases inside _ [] [] (kept_begun _) (by simp) () done ranBody with
    ⟨written, keptDone, _, enclosingDone⟩
  have returns : KeepsAll [] Compile.emitReturn := emitReturn
  rcases returns done written [] keptDone (by simp) () returned ranReturn with ⟨_, keptReturned, _⟩
  have enclosingEq := (Quiet.emitReturn.samePlace ranReturn).enclosing_eq.trans enclosingDone
  simp only [endFunction, enclosingEq] at ranEnd
  cases ranEnd
  rcases emitConstant_eq_ok ranLoad with ⟨room, rfl⟩
  have booked : Constant.Holds Function.Booked (.function returned.draft.function) :=
    keptReturned.booked_function
  exact ⟨_, kept.load booked (back?_of_emitReturn ranReturn) room, by simp, rfl⟩

end Keeps

theorem Built.keeps {caller : Procedure} {levels : Nat} {known : Known} {mode : Mode}
    {action : Compile α} (built : Built caller levels known mode action) :
    KeepsAll known.jumps action := by
  induction built with
  | pure value => exact .pure value
  | bind _ _ first second => exact .bind first second
  | recast same _ kept => exact same ▸ kept
  | refuse _ => exact .fail _
  | miss _ => exact .failAhead _
  | tooDeep => exact .failAhead _
  | lookahead => exact .lookahead
  | advance => exact .advance
  | read _ rest => exact .bind .lookahead fun kind => .bind .advance fun _ => rest kind
  | call _ _ _ _ _ inside => exact inside
  | enter _ _ _ _ inside => exact inside.nested
  | repeatReading _ _ _ asks does =>
    have round := Keeps.bind .lookahead fun kind => .bind .advance fun _ => does kind
    exact .inspect fun _ => .repeatWithin asks round _
  | repeatDeclaring _ _ _ asks does => exact .inspect fun _ => .repeatWithin asks does _
  | separated _ state each => exact .inspect fun _ => .separatedWithin each _ state
  | emit bare => exact .emit bare
  | apply count => exact .emitWith _ rfl ⟨rfl, rfl⟩
  | jump forward _ rest => exact .jump forward rest
  | patch written => exact .patchJump written
  | mark _ rest => exact .bind .codeSize rest
  | loop _ => exact .emitLoop _
  | number _ =>
    apply Keeps.bind .lastLexeme
    intro lexeme
    split
    · exact .emitConstant nofun
    · exact .fail _
  | string _ => exact .bind .lastLexeme fun _ => .emitConstant nofun
  | scope kind _ inside =>
    exact .bind (.openScope kind) fun _ => .bind inside fun _ => .closeScope
  | loopStart _ => exact .setLoopStart _
  | leave => exact .breakStatement
  | again => exact .continueStatement
  | use _ _ assignable value => exact .variableUse value assignable
  | declaring _ expectation _ inside =>
    apply Keeps.bind (.declare expectation)
    intro binding
    exact .bind (inside.frame _) fun _ => .define binding
  | declaringVisibly expectation _ inside =>
    apply Keeps.bind (.declare expectation)
    intro binding
    apply Keeps.bind ((Keeps.makeVisible binding).frame _)
    intro _
    exact .bind (inside.frame _) fun _ => .define binding
  | function _ _ _ inside => exact .function inside
  | count _ rest =>
    apply Keeps.inspect
    intro compiler
    split
    · exact .failAhead _
    · refine .bind (.reframe (fun _ => rfl) (fun _ => rfl) ?_) fun _ => rest
      exact fun _ scope present jump left => Or.inr ⟨scope, present, left⟩
  | inFunction _ rest =>
    apply Keeps.inspect
    intro compiler
    split
    · exact .fail _
    · exact rest

end Compile

theorem Draft.kept_script : Draft.script.Kept [] [] :=
  kept_of_empty rfl rfl fun _ present => absurd present List.not_mem_nil

end StackScript
