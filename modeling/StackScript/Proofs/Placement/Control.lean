import StackScript.Proofs.Placement.Statement

/-!
# Conditionals and loops in the final code

The two jumps of a conditional overlap; the jump that leaves a loop stays open through its body, and
the jumps that the body adds stay open until the loop is closed.
-/

namespace StackScript

open Draft (Wrote)
open Compile

namespace Statement

variable {layout : Layout} {before after : Draft} {stops : List Draft} {body : Statement}
  {condition : Expression} {exit : Option Nat} {increment : Option Expression}

def Found (statement : Statement) : Prop :=
  ∀ {layout : Layout} {before after : Draft} {stops : List Draft},
    statement.Writes before after stops → before.Ready layout → before.Admits statement →
    statement.Stated layout before after stops

theorem admits_of_declared {statement : Statement} (declares : statement.declared = [])
    (draft : Draft) : draft.Admits statement :=
  fun declaresSome => absurd declares declaresSome

theorem conditional_found {met unmet : Statement} (metFound : met.Found)
    (metDeclares : met.declared = []) (unmetFound : unmet.Found)
    (unmetDeclares : unmet.declared = []) : (Statement.conditional condition met unmet).Found := by
  intro layout before after stops writes ready _
  rcases writes with ⟨tested, jumped, popped, chosen, skipped, patched, dropped, other, unmetJump,
    doneJump, stopsMet, stopsUnmet, writesTest, jumps, pops, writesMet, skips, patches, drops,
    writesUnmet, finishes, rfl⟩
  have wroteTest := condition.found writesTest ready.valid ready.shows
  rcases Wrote.emitJump rfl jumps with ⟨wroteJump, rfl, jumpSize⟩
  rcases Wrote.emit rfl pops with ⟨wrotePop, popSize⟩
  have toMet : before.Wrote popped _ _ := (wroteTest.andThen wroteJump).andThen wrotePop
  rcases metFound writesMet (toMet.ready ready) (admits_of_declared metDeclares _) with
    ⟨breaks, stretchMet, alone⟩
  rcases Wrote.emitJump rfl skips with ⟨wroteSkip, rfl, skipSize⟩
  rcases ((toMet.andThen stretchMet).andThen wroteSkip).patchJump
    (List.perm_append_singleton _ (_ :: breaks)) patches with ⟨toDrop, patchSize⟩
  rcases Wrote.emit rfl drops with ⟨wroteDrop, dropSize⟩
  have toUnmet : before.Stretch dropped ((chosen.chunk.size + 1) :: breaks) breaks
      (layout.binds met) met.functionCount _ :=
    (toDrop.andThen wroteDrop).cast rfl (by simp) (by simp) (by simp)
  rcases unmetFound writesUnmet (toUnmet.ready ready (admits_of_declared metDeclares _))
    (admits_of_declared unmetDeclares _) with ⟨breaksUnmet, stretchUnmet, aloneUnmet⟩
  rcases (toUnmet.andThen stretchUnmet).patchJump List.perm_middle finishes with ⟨whole, finishSize⟩
  have joined : before.Stretch after (breaksUnmet ++ breaks) (breaksUnmet ++ breaks)
      (layout.binds (.conditional condition met unmet))
      (Statement.conditional condition met unmet).functionCount _ :=
    whole.cast rfl rfl (by simp [Layout.binds, metDeclares, unmetDeclares, declared]) rfl
  refine ⟨breaksUnmet ++ breaks, joined.imp ?_, ?_⟩
  · rintro final ⟨⟨⟨⟨⟨⟨⟨⟨codeTest, jumpWord⟩, popFound⟩, codeMet⟩, skipWord⟩, leadsUnmet⟩,
      dropFound⟩, codeUnmet⟩, leadsDone⟩ leads
    have code := codeMet fun jump present => leads jump (List.mem_append_right _ present)
    have codeOther := codeUnmet fun jump present => leads jump (List.mem_append_left _ present)
    have chooses := leadsUnmet.jumps jumpWord
    have leaves := leadsDone.jumps skipWord
    rw [skipSize] at chooses
    rw [← finishSize] at leaves
    rw [jumpSize] at popFound
    rw [patchSize, skipSize] at dropFound
    rw [popSize, jumpSize] at code
    rw [dropSize, patchSize, skipSize, ← finishSize] at codeOther
    refine ⟨_, _, _, _, codeTest, chooses, popFound, code, leaves, dropFound, codeOther, ?_⟩
    rw [← ends_eq ready.fits (joined.fits ready.fits)]
    simp
  · intro noLoop
    rw [alone noLoop, aloneUnmet noLoop]
    rfl

/-! ## Loops -/

theorem condition_wrote {condition : Option Expression} (meets : before.Meets layout)
    (writes : WritesCondition condition before exit after) :
    before.Wrote after exit.toList (fun final =>
      ∀ leave, (∀ jump ∈ exit, final.Leads jump leave) →
        ConditionAt final layout.names condition before.chunk.size after.chunk.size leave) ∧
      (exit = none ↔ condition = none) := by
  cases condition with
  | none =>
    rcases writes with ⟨rfl, rfl⟩
    exact ⟨(Wrote.refl _).imp fun final _ _ _ => rfl, by simp⟩
  | some condition =>
    rcases writes with ⟨tested, jumped, jump, writesTest, jumps, pops, rfl⟩
    have wroteTest := condition.found writesTest meets.valid meets.shows
    rcases Wrote.emitJump rfl jumps with ⟨wroteJump, rfl, jumpSize⟩
    rcases Wrote.emit rfl pops with ⟨wrotePop, popSize⟩
    refine ⟨((wroteTest.andThen wroteJump).andThen wrotePop).imp ?_, by simp⟩
    rintro final ⟨⟨codeTest, word⟩, popFound⟩ leave leads
    rw [jumpSize] at popFound
    exact ⟨_, codeTest, (leads _ rfl).jumps word, popFound, by omega⟩

theorem effect_forExit {jump : Nat} {patched : Draft}
    (patches : Effect (patchJump jump) before () patched)
    (pops : Effect (emit .pop) patched () after) :
    Effect (forExit (some jump)) before () after := by
  rcases effect_patchJump patches with ⟨inside, near, rfl⟩
  rcases pops with ⟨compiler, popped, ran, draftEq, rfl⟩
  rw [Nat.sub_sub] at near draftEq
  have ranPatch : patchJump jump { compiler with draft := before } = .ok () _ :=
    (patchJump_apply inside).trans (if_pos (Nat.le_of_lt_succ near))
  refine ⟨{ compiler with draft := before }, popped, (bind_of_ok ranPatch).trans ?_, rfl, rfl⟩
  simp only [Compiler.onDraft, ← draftEq]
  exact ran

theorem exit_coded {middle : Draft} {breaks : List Nat} {count : Nat}
    {claim : Chunk Constant → Prop}
    (coded : before.Coded middle (breaks ++ exit.toList) count claim)
    (effect : Effect (forExit exit) middle () after) :
    before.Coded after breaks count (fun final => claim final ∧
        ∀ jump ∈ exit, final.Leads jump middle.chunk.size ∧ final.Has middle.chunk.size .pop) ∧
      middle.SameFrame after ∧ after.chunk.size = middle.chunk.size + exit.toList.length := by
  cases exit with
  | none =>
    rcases effect_pure effect with ⟨_, rfl⟩
    rw [Option.toList_none, List.append_nil] at coded
    exact ⟨coded.imp fun final holds => ⟨holds, by simp⟩, .refl _, rfl⟩
  | some jump =>
    rcases effect_bind effect with ⟨_, patched, patches, pops⟩
    rcases coded.patchJump (List.perm_append_singleton jump breaks) patches with
      ⟨codedPatched, frame, size⟩
    rcases Wrote.emit rfl pops with ⟨wrotePop, popSize⟩
    refine ⟨(codedPatched.andThen wrotePop.toCoded).imp ?_, frame.trans wrotePop.frame,
      popSize.trans (congrArg (· + 1) size)⟩
    rintro final ⟨⟨holds, leads⟩, found⟩
    rw [size] at found
    exact ⟨holds, by simpa using ⟨leads, found⟩⟩

theorem increment_wrote {start again : Nat} (meets : before.Meets layout)
    (writes : WritesIncrement start increment before again after) :
    before.Wrote after [] fun final =>
      IncrementAt final layout.names start increment before.chunk.size after.chunk.size again := by
  cases increment with
  | none =>
    rcases writes with ⟨rfl, rfl⟩
    exact (Wrote.refl _).imp fun final _ => ⟨rfl, rfl⟩
  | some increment =>
    rcases writes with ⟨jumped, advanced, popped, looped, jump, jumps, rfl, writesIncrement, pops,
      loops, patches⟩
    rcases Wrote.emitJump rfl jumps with ⟨wroteJump, rfl, jumpSize⟩
    have meetsJumped := wroteJump.meets meets
    have wrote := increment.found writesIncrement meetsJumped.valid meetsJumped.shows
    rcases Wrote.emit rfl pops with ⟨wrotePop, popSize⟩
    rcases Wrote.emitLoop loops with ⟨wroteLoop, loopSize⟩
    rcases (((wroteJump.andThen wrote).andThen wrotePop).andThen wroteLoop).patchJump (.refl _)
      patches with ⟨whole, patchSize⟩
    refine whole.imp ?_
    rintro final ⟨⟨⟨⟨word, code⟩, popFound⟩, loopFound⟩, leads⟩
    have jumpFound := leads.jumps word
    rw [← patchSize] at jumpFound
    rw [jumpSize] at code
    rw [popSize] at loopFound
    exact ⟨_, jumpFound, code, popFound, loopFound, by omega, jumpSize⟩

theorem clause_plain {clause : Statement} (isClause : clause.isClause = true)
    (writes : clause.Writes before after stops) (meets : before.Meets layout) :
    clause.Plain layout before after stops := by
  cases clause with
  | empty =>
    rcases writes with ⟨rfl, rfl⟩
    exact empty_plain layout after
  | expression value => exact expression_plain meets writes
  | varDeclaration name initial => exact varDeclaration_plain meets writes
  | _ => cases isClause

theorem again_ready {scope : Scope} {outer : List Scope} {again exit : Nat}
    (meets : before.Meets layout) (scopesEq : before.scopes = scope :: outer)
    (loop : scope.kind = .loop) :
    Draft.Ready { before with scopes := Scope.setLoopStart again before.scopes }
      (layout.inLoop again exit) := by
  have nested := meets.tidy.nested
  rw [scopesEq] at nested
  have depthEq : Draft.depth { before with scopes := Scope.setLoopStart again before.scopes } =
      before.depth := by
    simp [Draft.depth, scopesEq, Scope.setLoopStart]
  have tidyAgain : Draft.Scoped
      { before with scopes := Scope.setLoopStart again before.scopes } := by
    refine ⟨?_, ?_⟩
    · rw [depthEq]
      exact meets.tidy.initialized
    · simp only [scopesEq, Scope.setLoopStart]
      exact nested
  refine ⟨⟨meets.valid.withScopes _, tidyAgain,
    ⟨meets.fits.names_eq, ?_, meets.fits.functions_eq, meets.fits.kind_eq⟩⟩, ?_⟩
  · simp only [scopesEq, Scope.setLoopStart]
    rfl
  · intro inner found
    have same : inner = { scope with loopStart := again } := by
      simpa [scopesEq, Scope.setLoopStart, Scope.innermostLoop?, loop] using found.symm
    refine ⟨⟨layout.names.length, again, exit⟩, rfl, by rw [same], ?_⟩
    rw [Draft.countFrom_eq_zero tidyAgain, Nat.zero_add]
    · exact meets.fits.length_eq
    · rw [depthEq, same, nested.1, Draft.depth, scopesEq]
      exact Nat.lt_succ_self _

theorem forLoop_found {initial : Statement} {condition : Option Expression}
    (isClause : initial.isClause = true) (bodyFound : body.Found)
    (bodyDeclares : body.declared = []) :
    (Statement.forLoop initial condition increment body).Found := by
  intro layout before after stops writes ready _
  rcases writes with ⟨opened, started, tested, advanced, done, looped, left, exit, again,
    stopsInitial, stopsInside, opens, writesInitial, writesCondition, writesIncrement, writesBody,
    loops, exits, closes, rfl⟩
  have openedEq := effect_openScope opens
  subst openedEq
  have meetsOpened := ready.openScope .loop
  -- The clauses in front of the body.
  have start := clause_plain isClause writesInitial meetsOpened
  have meetsStarted := start.meets meetsOpened
  rcases condition_wrote meetsStarted writesCondition with ⟨wroteTest, exitEq⟩
  have meetsTested := wroteTest.meets meetsStarted
  have wroteAdvance := increment_wrote meetsTested writesIncrement
  have toBody : (before.openScope .loop).Stretch advanced exit.toList []
      (layout.inScope.binds initial)
      initial.functionCount _ :=
    (start.andThen (wroteTest.andThen wroteAdvance)).cast (by simp) rfl rfl rfl
  have scopesBody := toBody.scopes_eq
  -- The body and what stands behind it.
  rcases bodyFound writesBody (again_ready (wroteAdvance.meets meetsTested) scopesBody rfl)
    (admits_of_declared bodyDeclares _) with ⟨breaks, stretch, _⟩
  rcases Wrote.emitLoop loops with ⟨wroteLoop, loopSize⟩
  have codedBody : advanced.Coded done breaks body.functionCount _ :=
    { stretch.toCoded with valid := fun valid => stretch.valid (valid.withScopes _) }
  have codedRounds := (toBody.toCoded.andThen codedBody).andThen wroteLoop.toCoded
  rcases exit_coded codedRounds exits with ⟨codedLeft, frame, exitSize⟩
  have scopesEq := (frame.scopes_eq.trans wroteLoop.scopes_eq).trans stretch.scopes_eq
  simp only [scopesBody, Draft.openScope, Scope.addBreaks, Scope.setLoopStart] at scopesEq
  rw [Scope.addBreaks_loop rfl, List.append_nil] at scopesEq
  have binds : layout.inScope.binds initial = initial.declared := by
    simp [Layout.binds, Layout.inScope]
  have localsEq : left.locals =
      initial.declared.map (⟨·, some (before.depth + 1)⟩) ++ before.locals := by
    rw [frame.locals_eq, wroteLoop.frame.locals_eq, stretch.locals_eq,
      binds_of_declared bodyDeclares, ← binds]
    exact toBody.locals_eq
  have closed : before.Stretch after [] [] [] _ _ := codedLeft.closeScope ready.tidy
    ((frame.head_eq.trans wroteLoop.head_eq).trans (stretch.head_eq.trans toBody.head_eq)) scopesEq
    rfl localsEq (.of_eq (List.append_nil _).symm) closes
  have joined : before.Stretch after [] []
      (layout.binds (.forLoop initial condition increment body))
      (Statement.forLoop initial condition increment body).functionCount _ :=
    closed.cast rfl rfl (binds_of_declared rfl).symm rfl
  refine ⟨[], joined.imp ?_, fun _ => rfl⟩
  rintro final ⟨⟨⟨⟨⟨codeInitial, test, codeIncrement⟩, codeBody⟩, loopFound⟩,
    leaves⟩, leads, pops⟩ _
  have code := codeBody (by
    rintro jump present loop same
    cases same
    exact leads jump present)
  rw [loopSize] at leaves exitSize
  refine ⟨_, _, _, done.chunk.size, left.chunk.size, again, _, _, codeInitial,
    test _ fun jump present => (leaves jump present).1, codeIncrement, code, loopFound,
    ?_, pops, ?_⟩
  · cases condition with
    | none =>
      rw [exitEq.mpr rfl] at exitSize
      exact exitSize
    | some value =>
      cases exit with
      | none => cases exitEq.mp rfl
      | some jump => exact ⟨(leaves jump rfl).2, exitSize⟩
  · rw [← ends_eq ready.fits (joined.fits ready.fits)]
    simp

theorem Writes.asForLoop (writes : (whileLoop condition body).Writes before after stops)
    (ready : before.Ready layout) :
    (forLoop .empty (some condition) none body).Writes before after stops := by
  rcases writes with ⟨opened, tested, jumped, popped, done, looped, patched, dropped, exit,
    stopsInside, opens, writesTest, jumps, pops, writesBody, loops, patches, drops, closes, rfl⟩
  have openedEq := effect_openScope opens
  subst openedEq
  have writesCondition : WritesCondition (some condition) (before.openScope .loop) (some exit)
      popped := ⟨_, _, exit, writesTest, jumps, pops, rfl⟩
  have scopesEq := (condition_wrote (ready.openScope .loop) writesCondition).1.scopes_eq
  have unchanged : Scope.setLoopStart before.chunk.size popped.scopes = popped.scopes := by
    rw [scopesEq]
    rfl
  refine ⟨_, _, _, _, done, looped, dropped, some exit, before.chunk.size, [], stopsInside, opens,
    ⟨rfl, rfl⟩, writesCondition, ⟨rfl, rfl⟩, ?_, loops, effect_forExit patches drops, closes, rfl⟩
  rw [unchanged]
  exact writesBody

theorem whileLoop_found (bodyFound : body.Found) (bodyDeclares : body.declared = []) :
    (Statement.whileLoop condition body).Found := by
  intro layout before after stops writes ready admits
  rcases forLoop_found rfl bodyFound bodyDeclares (writes.asForLoop ready) ready
    (admits_of_declared rfl _) with ⟨breaks, stretch, alone⟩
  refine ⟨breaks, (stretch.cast rfl rfl rfl (Nat.zero_add _)).imp ?_, alone⟩
  exact fun final code leads => codeAt_whileLoop.mpr (code leads)

end Statement

end StackScript
