import StackScript.Proofs.Placement.Expression

/-!
# Statements in the final code

The code of a statement stands in the final code where it was written. The jumps that leave a loop
are open until the loop is closed, so what is found of a statement in a loop depends on where those
jumps are made to lead.
-/

namespace StackScript

open Draft (Wrote)
open Compile

namespace Draft

variable {before after : Draft} {layout : Layout} {left breaks : List Nat} {statement : Statement}
  {claim : Chunk Constant → Prop}

/-- Where a draft ends, and at which height. -/
def mark (draft : Draft) : Nat × Nat :=
  (draft.chunk.size, draft.locals.length)

/-- Whether a draft is in order and has come to a layout, the loop around it apart. -/
structure Meets (draft : Draft) (layout : Layout) : Prop where
  valid : draft.Valid
  tidy : draft.Scoped
  fits : draft.Fits layout

/-- Whether a draft has come to a layout. -/
structure Ready (draft : Draft) (layout : Layout) : Prop extends Meets draft layout where
  fitsLoop : draft.FitsLoop layout

theorem Meets.shows (meets : before.Meets layout) : before.Shows layout.names := by
  refine ⟨[], before.locals, rfl, by simp, ?_, meets.fits.names_eq⟩
  intro entry present
  rcases meets.tidy.initialized entry present with ⟨depth, depthEq, _⟩
  simp [depthEq]

theorem Fits.length_eq (fits : before.Fits layout) :
    before.locals.length = layout.names.length := by
  rw [← fits.names_eq, List.length_map]

theorem Meets.openScope (meets : before.Meets layout) (kind : ScopeKind) :
    (before.openScope kind).Meets layout.inScope :=
  ⟨meets.valid.openScope kind, meets.tidy.openScope kind,
    meets.fits.names_eq, rfl, meets.fits.functions_eq, meets.fits.kind_eq⟩

theorem Stretch.meets
    (stretch : before.Stretch after left breaks (layout.binds statement) statement.functionCount
      claim) (meets : before.Meets layout) : after.Meets (layout.after statement) :=
  ⟨stretch.valid meets.valid, stretch.keepsScoped meets.tidy, stretch.fits meets.fits⟩

theorem Stretch.ready
    (stretch : before.Stretch after left breaks (layout.binds statement) statement.functionCount
      claim) (ready : before.Ready layout) (admits : before.Admits statement) :
    after.Ready (layout.after statement) :=
  ⟨stretch.meets ready.toMeets, stretch.fitsLoop admits ready.fitsLoop⟩

theorem Wrote.asEmpty (wrote : before.Wrote after left claim) (layout : Layout) :
    before.Stretch after left [] (layout.binds .empty) Statement.empty.functionCount claim ∧
      layout.after .empty = layout := by
  have binds : layout.binds .empty = [] := by simp [Layout.binds, Statement.declared]
  exact ⟨wrote.cast rfl rfl binds.symm rfl, by simp [Layout.after, binds, Statement.functionCount]⟩

theorem Wrote.meets (wrote : before.Wrote after left claim) (meets : before.Meets layout) :
    after.Meets layout := by
  rcases wrote.asEmpty layout with ⟨stretch, same⟩
  exact same ▸ stretch.meets meets

theorem Wrote.ready (wrote : before.Wrote after left claim) (ready : before.Ready layout) :
    after.Ready layout := by
  rcases wrote.asEmpty layout with ⟨stretch, same⟩
  exact same ▸ stretch.ready ready fun declares => absurd rfl declares

theorem Stretch.initialized {name : String} {depth : Option Nat} {count : Nat}
    (stretch : Stretch { before with locals := ⟨name, depth⟩ :: before.locals } after [] [] [] count
      claim) (room : before.locals.length < 256) :
    before.Stretch after.initializeLocal [] [] [name] count claim := by
  have scopesEq : after.scopes = before.scopes := stretch.scopes_eq
  have held : after.locals = ⟨name, depth⟩ :: before.locals := stretch.locals_eq
  have localsEq : after.initializeLocal.locals = ⟨name, some before.depth⟩ :: before.locals := by
    rw [initializeLocal, held, Draft.depth, scopesEq]
    rfl
  have valid : before.Valid → after.initializeLocal.Valid := by
    intro valid
    have validAfter := stretch.valid { valid with locals_le := room }
    exact { validAfter with locals_le := localsEq ▸ room }
  exact { stretch with valid, locals_eq := localsEq }

end Draft

namespace Statement

variable {layout : Layout} {before after : Draft} {stops : List Draft} {statement : Statement}
  {claim : Chunk Constant → Prop} {initial : Option Expression} {name : String} {value : Expression}

/-- What is known of the writing of a statement; its jumps out of the loop around it are open. -/
def Stated (statement : Statement) (layout : Layout) (before after : Draft)
    (stops : List Draft) : Prop :=
  ∃ breaks, before.Stretch after breaks breaks (layout.binds statement)
      statement.functionCount (fun final =>
        (∀ jump ∈ breaks, ∀ loop, layout.loop = some loop → final.Leads jump loop.exit) →
        statement.CodeAt final layout before.chunk.size after.chunk.size (stops.map Draft.mark)) ∧
    (layout.loop = none → breaks = [])

theorem ends_eq (fits : before.Fits layout) (fitsAfter : after.Fits (layout.after statement)) :
    [before, after].map Draft.mark = layout.ends statement before.chunk.size after.chunk.size := by
  simp [Draft.mark, Layout.ends, fits.length_eq, fitsAfter.length_eq]

def Plain (statement : Statement) (layout : Layout) (before after : Draft)
    (stops : List Draft) : Prop :=
  before.Stretch after [] [] (layout.binds statement) statement.functionCount fun final =>
    statement.CodeAt final layout before.chunk.size after.chunk.size (stops.map Draft.mark)

theorem Plain.stated (plain : statement.Plain layout before after stops) :
    statement.Stated layout before after stops :=
  ⟨[], plain.imp fun _ code _ => code, fun _ => rfl⟩

theorem binds_of_declared (declares : statement.declared = []) : layout.binds statement = [] := by
  simp [Layout.binds, declares]

theorem plain_of_stretch
    (stretch : before.Stretch after [] [] (layout.binds statement) statement.functionCount claim)
    (fits : before.Fits layout)
    (code : ∀ final, claim final → statement.CodeAt final layout before.chunk.size
      after.chunk.size (layout.ends statement before.chunk.size after.chunk.size)) :
    statement.Plain layout before after [before, after] := by
  refine stretch.imp fun final holds => ?_
  rw [ends_eq fits (stretch.fits fits)]
  exact code final holds

theorem plain_of_wrote (wrote : before.Wrote after [] claim) (binds : layout.binds statement = [])
    (counts : statement.functionCount = 0) (fits : before.Fits layout)
    (code : ∀ final, claim final → statement.CodeAt final layout before.chunk.size
      after.chunk.size (layout.ends statement before.chunk.size after.chunk.size)) :
    statement.Plain layout before after [before, after] :=
  plain_of_stretch (wrote.cast rfl rfl binds.symm counts.symm) fits code

theorem empty_plain (layout : Layout) (before : Draft) :
    Statement.empty.Plain layout before before [] :=
  ((Wrote.refl before).asEmpty layout).1.imp fun _ _ => ⟨rfl, rfl⟩

theorem expression_plain (meets : before.Meets layout)
    (writes : (Statement.expression value).Writes before after stops) :
    (Statement.expression value).Plain layout before after stops := by
  rcases writes with ⟨valued, writesValue, pops, rfl⟩
  have wroteValue := value.found writesValue meets.valid meets.shows
  rcases Wrote.emit rfl pops with ⟨wrotePop, size⟩
  refine plain_of_wrote (wroteValue.andThen wrotePop) (binds_of_declared rfl) rfl meets.fits ?_
  rintro final ⟨codeValue, found⟩
  exact ⟨_, codeValue, found, size, rfl⟩

theorem print_plain (meets : before.Meets layout)
    (writes : (Statement.print value).Writes before after stops) :
    (Statement.print value).Plain layout before after stops := by
  rcases writes with ⟨valued, writesValue, prints, rfl⟩
  have wroteValue := value.found writesValue meets.valid meets.shows
  rcases Wrote.emit rfl prints with ⟨wrotePrint, size⟩
  refine plain_of_wrote (wroteValue.andThen wrotePrint) (binds_of_declared rfl) rfl meets.fits ?_
  rintro final ⟨codeValue, found⟩
  exact ⟨_, codeValue, found, size, rfl⟩

theorem emitReturn_wrote (effect : Effect emitReturn before () after) :
    before.Wrote after [] fun final =>
      final.HasAll [.loadNil, .ret] before.chunk.size after.chunk.size := by
  rcases effect_bind effect with ⟨_, middle, loads, returns⟩
  rcases Wrote.emit rfl loads with ⟨wroteNil, nilSize⟩
  rcases Wrote.emit rfl returns with ⟨wroteReturn, size⟩
  refine (wroteNil.andThen wroteReturn).imp ?_
  rintro final ⟨foundNil, foundReturn⟩
  rw [nilSize] at foundReturn size
  exact ⟨foundNil, foundReturn, size⟩

theorem returnValue_plain {value : Option Expression} (meets : before.Meets layout)
    (writes : (Statement.returnValue value).Writes before after stops) :
    (Statement.returnValue value).Plain layout before after stops := by
  cases value with
  | none =>
    rcases writes with ⟨inFunction, returns, rfl⟩
    refine plain_of_wrote (emitReturn_wrote returns) (binds_of_declared rfl) rfl meets.fits
      fun final found => ?_
    exact ⟨meets.fits.kind_eq.trans inFunction, found, rfl⟩
  | some value =>
    rcases writes with ⟨inFunction, valued, writesValue, returns, rfl⟩
    have wroteValue := value.found writesValue meets.valid meets.shows
    rcases Wrote.emit rfl returns with ⟨wroteReturn, size⟩
    refine plain_of_wrote (wroteValue.andThen wroteReturn) (binds_of_declared rfl) rfl meets.fits ?_
    rintro final ⟨codeValue, found⟩
    exact ⟨meets.fits.kind_eq.trans inFunction, _, codeValue, found, size, rfl⟩

/-! ## Jumps out of a loop -/

theorem continueLoop_plain (ready : before.Ready layout)
    (writes : Statement.continueLoop.Writes before after stops) :
    Statement.continueLoop.Plain layout before after stops := by
  rcases writes with ⟨scope, popped, inLoop, pops, loops, rfl⟩
  rcases ready.fitsLoop scope inLoop with ⟨loop, loopEq, startEq, height⟩
  rcases Wrote.emitLoop loops with ⟨wroteLoop, size⟩
  refine plain_of_wrote ((Wrote.emitPops pops).andThen wroteLoop) (binds_of_declared rfl) rfl
    ready.fits ?_
  rintro final ⟨foundPops, foundLoop⟩
  rw [ready.fits.length_eq] at height
  have count : before.countFrom (scope.depth + 1) = layout.names.length - loop.height := by omega
  rw [count] at foundPops
  rw [← startEq] at foundLoop
  exact ⟨loop, _, loopEq, by omega, foundPops, foundLoop, size, rfl⟩

theorem breakLoop_stated (ready : before.Ready layout)
    (writes : Statement.breakLoop.Writes before after stops) :
    Statement.breakLoop.Stated layout before after stops := by
  rcases writes with ⟨scope, popped, jumped, jump, inLoop, pops, jumps, rfl, rfl⟩
  rcases ready.fitsLoop scope inLoop with ⟨loop, loopEq, _, height⟩
  rcases Wrote.emitJump rfl jumps with ⟨wroteJump, rfl, size⟩
  have wrote := (Wrote.emitPops pops).andThen wroteJump
  have stretch : before.Stretch
      { jumped with scopes := Scope.addBreak (popped.chunk.size + 1) jumped.scopes }
      [popped.chunk.size + 1] [popped.chunk.size + 1] (layout.binds .breakLoop)
      Statement.breakLoop.functionCount _ :=
    Draft.Stretch.cast { wrote with
      valid := fun valid => (wrote.valid valid).withScopes _
      scopes_eq := congrArg (Scope.addBreak _) wrote.scopes_eq }
      rfl rfl (binds_of_declared rfl).symm rfl
  refine ⟨[popped.chunk.size + 1], stretch.imp ?_, ?_⟩
  · rintro final ⟨foundPops, word⟩ leads
    rw [ends_eq ready.fits (stretch.fits ready.fits)]
    have lead := leads _ (List.mem_singleton_self _) loop loopEq
    rw [ready.fits.length_eq] at height
    have count : before.countFrom (scope.depth + 1) = layout.names.length - loop.height := by omega
    rw [count] at foundPops
    exact ⟨loop, _, loopEq, by omega, foundPops, lead.jumps word, size, rfl⟩
  · intro noLoop
    rw [loopEq] at noLoop
    cases noLoop

/-! ## Sequences and declarations -/

theorem sequence_stated {first rest : Statement} {middle : Draft} {stopsRest : List Draft}
    (firstStated : first.Stated layout before middle stops)
    (restStated : rest.Stated (layout.after first) middle after stopsRest) :
    (Statement.sequence first rest).Stated layout before after (stops ++ stopsRest) := by
  rcases firstStated with ⟨breaks, stretch, alone⟩
  rcases restStated with ⟨breaksRest, stretchRest, aloneRest⟩
  have bound : (layout.after first).binds rest ++ layout.binds first =
      layout.binds (.sequence first rest) := by
    cases outermost : layout.isOutermost with
    | true => simp [Layout.binds, Layout.after, outermost]
    | false => simp [Layout.binds, Layout.after, declared, outermost]
  refine ⟨breaksRest ++ breaks, ((stretch.andThen stretchRest).cast rfl rfl bound rfl).imp ?_, ?_⟩
  · rintro final ⟨code, codeRest⟩ leads
    refine ⟨middle.chunk.size, _, _, code ?_, codeRest ?_, List.map_append⟩
    · exact fun jump present => leads jump (List.mem_append_right _ present)
    · exact fun jump present => leads jump (List.mem_append_left _ present)
  · intro noLoop
    rw [alone noLoop, aloneRest noLoop]
    rfl

theorem initial_wrote {names : List String} (valid : before.Valid) (shows : before.Shows names)
    (writes : WritesInitial initial before after) :
    before.Wrote after [] fun final =>
      InitialAt final names initial before.chunk.size after.chunk.size := by
  cases initial with
  | some value => exact value.found writes valid shows
  | none =>
    rcases Wrote.emit rfl writes with ⟨wrote, size⟩
    exact wrote.imp fun final found => ⟨found, size⟩

theorem declares_cases {binding : Binding} (declares : Draft.Declares name before binding after)
    (fits : before.Fits layout) :
    (layout.isOutermost = false ∧ binding = .slot ∧ before.locals.length < 256 ∧
      after = before.addLocal name) ∨
    (layout.isOutermost = true ∧ ∃ place, binding = .global place ∧
      Effect (nameConstant name) before place after) := by
  rcases declares with ⟨inside, rfl, _, room, rfl⟩ | ⟨outside, place, rfl, named⟩
  · refine Or.inl ⟨?_, rfl, room, rfl⟩
    rw [fits.isOutermost_eq]
    cases scopesEq : before.scopes with
    | nil => simp [Draft.depth, scopesEq] at inside
    | cons scope outer => rfl
  · refine Or.inr ⟨?_, place, rfl, named⟩
    rw [fits.isOutermost_eq]
    have empty : before.scopes = [] := List.length_eq_zero_iff.mp outside
    simp [empty]

theorem varDeclaration_plain (meets : before.Meets layout)
    (writes : (Statement.varDeclaration name initial).Writes before after stops) :
    (Statement.varDeclaration name initial).Plain layout before after stops := by
  rcases writes with ⟨binding, declaredDraft, valued, declares, writesInitial, defines, rfl⟩
  rcases declares_cases declares meets.fits with
    ⟨inside, rfl, room, rfl⟩ | ⟨outside, place, rfl, named⟩
  · have shows : (before.addLocal name).Shows layout.names := by
      rcases meets.shows with ⟨pending, shown, localsEq, uninitialized, initialized, namesEq⟩
      refine ⟨⟨name, none⟩ :: pending, shown, by simp [Draft.addLocal, localsEq], ?_, initialized,
        namesEq⟩
      simpa using uninitialized
    have validAdded : (before.addLocal name).Valid := { meets.valid with locals_le := room }
    have wrote := initial_wrote validAdded shows writesInitial
    have definedEq := effect_onDraft defines
    subst definedEq
    have binds : layout.binds (.varDeclaration name initial) = [name] := by
      simp [Layout.binds, declared, inside]
    refine plain_of_stretch ((Draft.Stretch.initialized wrote room).cast rfl rfl binds.symm rfl)
      meets.fits fun final code => ?_
    exact ⟨_, code, by simp [DefinesAt, inside, Draft.initializeLocal], rfl⟩
  · rcases Wrote.nameConstant meets.valid named with ⟨wroteName, sameSize⟩
    have meetsNamed := wroteName.meets meets
    have wrote := initial_wrote meetsNamed.valid meetsNamed.shows writesInitial
    rcases Wrote.emitWith rfl defines with ⟨wroteDefine, size⟩
    refine plain_of_wrote ((wroteName.andThen wrote).andThen wroteDefine)
      (by simp [Layout.binds, outside]) rfl meets.fits ?_
    rintro final ⟨⟨names, code⟩, found⟩
    rw [sameSize] at code
    refine ⟨_, code, ?_, rfl⟩
    simp only [DefinesAt, outside, if_true]
    exact ⟨_, found, names, size⟩

/-! ## Blocks -/

theorem block_stated {body : Statement} {done : Draft} (meets : before.Meets layout)
    (bodyStated : body.Stated layout.inScope (before.openScope .block) done stops)
    (closes : Effect closeScope done () after) :
    (Statement.block body).Stated layout before after (before :: after :: stops) := by
  rcases bodyStated with ⟨breaks, stretch, alone⟩
  have scopesEq := stretch.scopes_eq
  rw [Draft.openScope, Scope.addBreaks_other (by simp)] at scopesEq
  have binds : layout.inScope.binds body = body.declared := by
    simp [Layout.binds, Layout.inScope]
  have whole := stretch.toCoded.closeScope meets.tidy stretch.head_eq scopesEq rfl
    stretch.locals_eq (.refl _) closes
  rw [binds] at whole
  have joined : before.Stretch after breaks breaks (layout.binds (.block body))
      (Statement.block body).functionCount _ := whole.cast rfl rfl (binds_of_declared rfl).symm rfl
  refine ⟨breaks, joined.imp ?_, alone⟩
  rintro final ⟨code, _, pops⟩ leads
  refine ⟨_, _, code leads, pops, ?_⟩
  rw [← ends_eq meets.fits (joined.fits meets.fits)]
  rfl

end Statement

end StackScript
