import StackScript.Proofs.Ruling.Variable

/-!
# Blocks, conditionals and loops are written exactly if they are lawful

Where a scope is closed, the jumps that leave it get their distances, and its locals are given up.
-/

namespace StackScript

open Compile

/-! ## Scopes -/

def Compiler.inside (writer : Compiler) (scope : Scope) : Compiler :=
  writer.onDraft fun draft => { draft with scopes := scope :: draft.scopes }

namespace Compile

variable {writer middle : Compiler} {use : Use} {bytes : Nat} {declared : List String}
  {exits : Nat → List Nat} {distances : List Nat}

theorem patchAll_lays {offsets : List Nat} {size : Nat}
    (related : List.Forall₂ (fun offset distance => offset + 2 + distance = size) offsets distances)
    (lays : writer.Lays bytes declared exits use middle) (sizeEq : middle.draft.chunk.size = size) :
    Settles (∀ distance ∈ distances, distance ≤ maxDistance) True
      (fun _ after => writer.Lays bytes declared exits use after)
      (offsets.forM patchJump middle) := by
  induction related generalizing middle with
  | nil => exact ⟨by simp, trivial, lays⟩
  | @cons _ distance _ distances first _ ih =>
    have rules : (∀ other ∈ distance :: distances, other ≤ maxDistance) ↔
        distance ≤ maxDistance ∧ ∀ other ∈ distances, other ≤ maxDistance :=
      List.forall_mem_cons
    apply (patchJump_lays lays (first.trans sizeEq.symm)).thenRule rules
    intro _ patched _ laysPatched
    exact ih laysPatched (by rw [laysPatched.size_eq, ← lays.size_eq, sizeEq])

theorem closeScope_lays {scope closing : Scope} {jumps : List Nat} {leaving : Nat → List Nat}
    (isScoped : writer.draft.Scoped) (depthEq : scope.depth = writer.draft.depth + 1)
    (lays : (writer.inside scope).Lays bytes declared exits use middle)
    (scopesEq : middle.draft.scopes = closing :: Scope.addBreaks jumps writer.draft.scopes)
    (sameDepth : closing.depth = scope.depth)
    (own : List.Forall₂ (fun jump distance => jump + 2 + distance = middle.draft.chunk.size)
      closing.breaks distances)
    (others : ∀ ahead, List.Forall₂ (fun jump distance => jump + 2 + distance =
      middle.draft.chunk.size + ahead) jumps (leaving ahead)) :
    Settles (∀ distance ∈ distances, distance ≤ maxDistance) True
      (fun _ after => writer.Lays (bytes + declared.length) []
        (fun ahead => leaving (declared.length + ahead)) use after)
      (closeScope middle) := by
  have holds : (middle.onDraft fun draft => { draft with
      scopes := Scope.addBreaks jumps writer.draft.scopes }).draft.pooled.Holds use := lays.holds
  have reversed : (∀ distance ∈ distances, distance ≤ maxDistance) ↔
      ∀ distance ∈ distances.reverse, distance ≤ maxDistance := by
    simp
  rw [closeScope, get_bind, scopesEq, reversed]
  apply Settles.after rfl
  apply (patchAll_lays (List.forall₂_reverse_iff.mpr own) (.refl holds) rfl).thenOk
  intro _ patched _ patches
  have localsPatched : patched.draft.locals =
      declared.map (⟨·, some (writer.draft.depth + 1)⟩) ++ writer.draft.locals :=
    patches.locals_eq.trans lays.locals_eq
  rcases Draft.countFrom_dropFrom localsPatched
    (Draft.gone_of_declared declared (Nat.le_refl _)) (isScoped.stays (Nat.lt_succ_self _))
    with ⟨countEq, dropEq⟩
  rw [List.length_map] at countEq
  have dropped : (patched.onDraft (·.dropFrom (writer.draft.depth + 1))).draft.pooled.Holds use :=
    patches.holds
  rcases emitPops_adds declared.length (.refl dropped) with ⟨popped, ran, pops⟩
  have sizeEq : popped.draft.chunk.size = middle.draft.chunk.size + declared.length := by
    rw [pops.size_eq, Nat.zero_add]
    exact congrArg (· + declared.length) patches.size_eq
  refine ⟨(), popped.tell (.closed closing popped.draft.chunk.size), ?_, ?_⟩
  · change (emitPops (patched.draft.countFrom closing.depth) >>= fun _ =>
      modify fun compiler => compiler.tell (.closed closing compiler.draft.chunk.size) :
        Compile Unit) (patched.onDraft (·.dropFrom closing.depth)) = _
    rw [sameDepth, depthEq, countEq, bind_of_ok ran]
    rfl
  · refine ⟨pops.head_eq.trans (patches.head_eq.trans lays.head_eq),
      pops.locals_eq.trans dropEq, ⟨jumps, pops.scopes_eq.trans patches.scopes_eq, ?_⟩, ?_,
      pops.holds, pops.enclosing_eq.trans (patches.enclosing_eq.trans lays.enclosing_eq)⟩
    · intro ahead
      have earlier := others (declared.length + ahead)
      rw [← Nat.add_assoc, ← sizeEq] at earlier
      exact earlier
    · change popped.draft.chunk.size = _
      rw [sizeEq, lays.size_eq, Nat.add_assoc]
      rfl

end Compile

namespace Site.Fits

variable {site : Site} {draft : Draft} {scope : Scope}

theorem inside (fits : site.Fits draft) (depthEq : scope.depth = draft.depth + 1) :
    site.inScope.Fits { draft with scopes := scope :: draft.scopes } := by
  refine ⟨fits.kind_eq, ?_, ⟨depthEq, fits.nested⟩, draft.locals, rfl, fits.names_eq.symm, ?_⟩
  · simp [Site.inScope]
  · intro entry present
    rcases fits.isScoped.initialized entry present with ⟨depth, depthEq, below⟩
    exact ⟨depth, depthEq, Or.inl (Nat.lt_succ_of_le below)⟩

theorem inLoop (fits : site.Fits draft) : site.inLoop.Fits draft :=
  ⟨fits.kind_eq, fits.outermost_iff, fits.nested, fits.locals_eq⟩

theorem startLoop (fits : site.Fits draft) {bytes : Nat}
    (found : Scope.innermostLoop? draft.scopes = some scope) (depthEq : scope.depth = draft.depth)
    (startEq : scope.loopStart + bytes = draft.chunk.size) :
    (site.inLoop.past bytes).FitsLoop draft := by
  refine ⟨scope, found, ?_, ?_⟩
  · change scope.loopStart + (0 + bytes) = _
    rw [Nat.zero_add, startEq]
  · rw [depthEq, Draft.countFrom_eq_zero fits.isScoped (Nat.lt_succ_self _), fits.length_eq]
    rfl

end Site.Fits

namespace Statement

variable {body : Statement} {bytes : Nat} {use earlier : Use} {writer middle : Compiler}
  {condition : Option Expression} {declared : List String} {scope : Scope}

theorem block_ruled (ruled : body.Ruled) : (block body).Ruled := by
  intro site writer use described fitsLoop _
  have isScoped := described.fits.isScoped
  have opened : site.inScope.Describes (writer.onDraft (·.openScope .block)) use :=
    ⟨described.fits.inside rfl, described.holds, described.room⟩
  have binds : site.inScope.binds body = body.declared := by
    simp [Site.binds, Site.inScope]
  rw [Settled, generate, binds_eq_nil rfl]
  apply Settles.after rfl
  apply (ruled opened fitsLoop (isScoped.admits_openBlock body)).thenRule
    (iff_of_eq (and_true _)).symm
  intro _ middle _ lays
  rcases lays.leaves with ⟨jumps, scopesEq, distances⟩
  rw [binds] at lays
  have scopesMiddle := scopesEq.trans (Scope.addBreaks_other (by simp) jumps writer.draft.scopes)
  exact (closeScope_lays isScoped rfl lays scopesMiddle rfl .nil distances).congr (by simp) Iff.rfl

theorem Ruled.inside {statement : Statement} (ruled : statement.Ruled)
    (declares : statement.declared = []) {site : Site} {exits : Nat → List Nat}
    (described : site.Describes writer earlier) (fitsLoop : site.FitsLoop writer.draft)
    (lays : writer.Lays bytes [] exits use middle) (room : use.Fits) :
    Settles (statement.Lawful (site.past bytes))
      ((use + statement.use site).Fits ∧ statement.FunctionsFit)
      (fun _ after => writer.Lays (bytes + statement.size site) []
        (fun ahead => statement.exits site ahead ++ exits (statement.size site + ahead))
        (use + statement.use site) after)
      (statement.generate middle) := by
  have settles := ruled.behind described fitsLoop lays (by simp [declares]) room
  rw [binds_eq_nil declares] at settles
  exact settles

theorem conditional_ruled {condition : Expression} {met unmet : Statement}
    (ruledMet : met.Ruled) (ruledUnmet : unmet.Ruled) (declaresMet : met.declared = [])
    (declaresUnmet : unmet.declared = []) : (conditional condition met unmet).Ruled := by
  intro site writer use described fitsLoop _
  rw [Settled, generate, binds_eq_nil rfl, Statement.use, FunctionsFit, ← Use.add_assoc,
    ← Use.add_assoc]
  apply (described.evaluates condition).thenMore Iff.rfl fun room => room.left.left
  intro _ tested room adds
  apply Settles.after (emitJump_apply rfl tested)
  apply Settles.after (emit_apply rfl _)
  have jumped := (adds.write .jumpIfFalse placeholder tested.previous.line).write .pop 0
    tested.previous.line
  apply (ruledMet.inside declaresMet described fitsLoop jumped room).andMore Iff.rfl Use.Fits.left
  intro _ chosen roomMet laysMet
  apply Settles.after (emitJump_apply rfl chosen)
  have left := laysMet.write .jump placeholder chosen.previous.line
  have sizeTested := adds.size_eq
  have sizeLeft := left.size_eq
  have overMet : tested.draft.chunk.size + 1 + 2 + (met.size site + 4) =
      (chosen.onDraft (·.write .jump placeholder chosen.previous.line)).draft.chunk.size := by
    rw [sizeLeft, sizeTested]
    simp only [Opcode.size, Opcode.operandSize]
    omega
  apply (patchJump_lays left overMet).andThen Iff.rfl (iff_of_eq (true_and _)).symm
  intro _ patched _ _ laysPatched
  apply Settles.after (emit_apply rfl patched)
  have dropped := laysPatched.write .pop 0 patched.previous.line
  apply (ruledUnmet.inside declaresUnmet described fitsLoop dropped roomMet).thenRule Iff.rfl
  intro _ other _ laysUnmet
  have sizeOther := laysUnmet.size_eq
  have sizeChosen := laysMet.size_eq
  have overUnmet : chosen.draft.chunk.size + 1 + 2 + (unmet.size site + 1) =
      other.draft.chunk.size := by
    rw [sizeOther, sizeChosen]
    simp only [Opcode.size, Opcode.operandSize]
    omega
  apply (patchJump_lays laysUnmet overUnmet).imp
  intro _ after _ _ lays
  apply lays.cast rfl rfl _ rfl
  intro ahead
  simp only [exits, List.append_nil]
  congr 2
  simp only [Opcode.size, Opcode.operandSize]
  omega

/-! ## Loops -/

section Clauses

variable {site : Site} {writer : Compiler} {use : Use}

theorem generateCondition_settles (described : site.Describes writer use)
    (condition : Option Expression) :
    Settles (∀ value ∈ condition, value.Small) (use + Expression.useOf site.names condition).Fits
      (fun exit after => writer.Adds (conditionSize condition)
          (use + Expression.useOf site.names condition) after ∧
        exit = condition.map fun value => writer.draft.chunk.size + value.size + 1)
      (generateCondition condition writer) := by
  cases condition with
  | none =>
    have nothing : use + Expression.useOf site.names none = use := use.add_none
    rw [nothing]
    exact ⟨by simp, described.room, .refl described.holds, rfl⟩
  | some value =>
    apply ((described.evaluates value).thenOk _).congr (by simp) Iff.rfl
    intro _ tested _ adds
    have ran : (do
        let exit ← emitJump .jumpIfFalse
        emit .pop
        return some exit : Compile (Option Nat)) tested =
        .ok (some (tested.draft.chunk.size + 1)) _ :=
      (bind_of_ok (emitJump_apply rfl tested)).trans (bind_of_ok (emit_apply rfl _))
    refine ⟨_, _, ran, ?_, ?_⟩
    · exact (adds.write .jumpIfFalse placeholder tested.previous.line).write .pop 0
        tested.previous.line
    · rw [adds.size_eq]
      rfl

theorem generateIncrement_settles {start before : Nat} (described : site.Describes writer use)
    (startEq : start + before = writer.draft.chunk.size) (increment : Option Expression) :
    Settles (∀ value ∈ increment, value.Small ∧ before + value.size + 7 ≤ maxDistance ∧
        value.size + 4 ≤ maxDistance)
      (use + Expression.useOf site.names increment).Fits
      (fun again after => writer.Adds (incrementSize increment)
          (use + Expression.useOf site.names increment) after ∧
        again + increment.elim before (·.size + 4) = after.draft.chunk.size)
      (generateIncrement start increment writer) := by
  cases increment with
  | none =>
    have nothing : use + Expression.useOf site.names none = use := use.add_none
    rw [nothing]
    exact ⟨by simp, described.room, .refl described.holds, startEq⟩
  | some value =>
    have rules : (∀ other ∈ some value, other.Small ∧ before + other.size + 7 ≤ maxDistance ∧
        other.size + 4 ≤ maxDistance) ↔ value.Small ∧ before + value.size + 7 ≤ maxDistance ∧
        value.size + 4 ≤ maxDistance := by
      simp
    have jumped := (Compiler.Lays.refl described.holds).write .jump placeholder writer.previous.line
    have describedJumped : site.Describes _ use := jumped.describes described described.room
    rw [generateIncrement]
    apply Settles.after (emitJump_apply rfl writer)
    apply Settles.after rfl
    apply (describedJumped.evaluates value).thenRule rules
    intro _ valued _ adds
    apply Settles.after (emit_apply rfl valued)
    have dropped := (jumped.trans adds).write .pop 0 valued.previous.line
    have sizeDropped := dropped.size_eq
    have back : start + (before + value.size + 7) =
        (valued.onDraft (·.write .pop 0 valued.previous.line)).draft.chunk.size + 3 := by
      rw [sizeDropped]
      simp only [Opcode.size, Opcode.operandSize]
      omega
    apply (emitLoop_lays dropped back).thenRule Iff.rfl
    intro _ looped _ laysLoop
    have sizeLooped := laysLoop.size_eq
    have spans : writer.draft.chunk.size + 1 + 2 + (value.size + 4) = looped.draft.chunk.size := by
      rw [sizeLooped]
      simp only [Opcode.size, Opcode.operandSize]
      omega
    apply (patchJump_lays laysLoop spans).thenOk
    intro _ patched _ lays
    refine ⟨_, _, rfl, lays.cast ?_ rfl (fun _ => rfl) rfl, ?_⟩
    · simp only [incrementSize, Option.elim_some, Opcode.size, Opcode.operandSize]
      omega
    · have sizeJumped := jumped.size_eq
      simp only [Option.elim_some]
      rw [lays.size_eq, sizeJumped]
      simp only [Opcode.size, Opcode.operandSize]
      omega

theorem forExit_settles {exit : Option Nat} {condition : Option Expression} {middle : Compiler}
    {bytes distance : Nat} {declared : List String} {exits : Nat → List Nat}
    (lays : writer.Lays bytes declared exits use middle) (sameSome : exit.isSome = condition.isSome)
    (distanceEq : ∀ jump ∈ exit, jump + 2 + distance = middle.draft.chunk.size) :
    Settles (condition.isSome = true → distance ≤ maxDistance) True
      (fun _ after => writer.Lays (bytes + exitSize condition) declared
        (fun ahead => exits (exitSize condition + ahead)) use after) (forExit exit middle) := by
  cases exit with
  | none =>
    rw [Option.isSome_none, eq_comm, Option.isSome_eq_false_iff, Option.isNone_iff_eq_none]
      at sameSome
    subst sameSome
    refine ⟨by simp, trivial, lays.cast rfl rfl ?_ rfl⟩
    intro ahead
    exact congrArg exits (Nat.zero_add ahead).symm
  | some jump =>
    rw [Option.isSome_some, eq_comm, Option.isSome_iff_exists] at sameSome
    rcases sameSome with ⟨value, rfl⟩
    have rules : distance ≤ maxDistance ↔
        ((some value).isSome = true → distance ≤ maxDistance) := by
      simp
    apply Settles.congr _ rules Iff.rfl
    apply (patchJump_lays lays (distanceEq jump rfl)).thenOk
    intro _ patched _ laysPatched
    exact ⟨(), _, emit_apply rfl patched, laysPatched.write .pop 0 patched.previous.line⟩

end Clauses

theorem Lays.restart (lays : (writer.inside scope).Lays bytes declared (fun _ => []) use middle)
    (again : Nat) :
    (writer.inside { scope with loopStart := again }).Lays bytes declared (fun _ => []) use
      (middle.onDraft fun draft =>
        { draft with scopes := Scope.setLoopStart again draft.scopes }) := by
  refine ⟨lays.head_eq, lays.locals_eq, ⟨[], ?_, fun _ => .nil⟩, lays.size_eq, lays.holds,
    lays.enclosing_eq⟩
  have scopesEq : middle.draft.scopes = scope :: writer.draft.scopes := lays.scopes_eq
  change Scope.setLoopStart again middle.draft.scopes = _
  rw [scopesEq]
  rfl

theorem rounds_settle {site : Site} {started : Compiler} {round ahead : Nat} {exit : Option Nat}
    (ruled : body.Ruled) (declares : body.declared = []) (described : site.Describes writer earlier)
    (depthEq : scope.depth = writer.draft.depth + 1) (isLoop : scope.kind = .loop)
    (noBreaks : scope.breaks = [])
    (lays : (writer.inside scope).Lays bytes declared (fun _ => []) use started) (room : use.Fits)
    (roundEq : scope.loopStart + round = started.draft.chunk.size)
    (sameSome : exit.isSome = condition.isSome)
    (aheadEq : ∀ jump ∈ exit, jump + 2 + ahead = started.draft.chunk.size) :
    let inside := (site.inScope.bind declared).inLoop
    Settles (body.Lawful (inside.past round) ∧ round + body.size inside + 3 ≤ maxDistance ∧
        (condition.isSome = true → ahead + body.size inside + 3 ≤ maxDistance) ∧
        ∀ distance ∈ body.exits inside (3 + exitSize condition), distance ≤ maxDistance)
      ((use + body.use inside).Fits ∧ body.FunctionsFit)
      (fun _ after => writer.Adds
        (bytes + body.size inside + 3 + exitSize condition + declared.length)
        (use + body.use inside) after)
      ((do
        body.generate
        emitLoop scope.loopStart
        forExit exit
        closeScope : Compile Unit) started) := by
  intro inside
  have fits : (site.inScope.bind declared).Fits started.draft :=
    lays.fits (described.fits.inside depthEq)
  have scopesEq : started.draft.scopes = scope :: writer.draft.scopes := lays.scopes_eq
  have found : Scope.innermostLoop? started.draft.scopes = some scope := by
    simp [Scope.innermostLoop?, scopesEq, isLoop]
  have depthStarted : scope.depth = started.draft.depth :=
    depthEq.trans (congrArg List.length scopesEq).symm
  have describedRound : (inside.past round).Describes started use :=
    ⟨fits.inLoop.past round, lays.holds, room⟩
  have settles := ruled describedRound (fits.startLoop found depthStarted roundEq)
    fun some => absurd declares some
  rw [Settled, binds_eq_nil declares, size_past, use_past,
    show body.exits (inside.past round) = body.exits inside from
      funext (exits_past body _ _)] at settles
  apply settles.thenRule Iff.rfl
  intro _ done _ laysBody
  have sizeDone := laysBody.size_eq
  have laysRound := (lays.trans laysBody).cast rfl (List.nil_append _)
    (fun _ => List.append_nil _) rfl
  have back : scope.loopStart + (round + body.size inside + 3) = done.draft.chunk.size + 3 := by
    omega
  apply (emitLoop_lays laysRound back).thenRule Iff.rfl
  intro _ looped _ laysLoop
  have sizeLooped := laysLoop.size_eq
  have sizeStarted := lays.size_eq
  have out : ∀ jump ∈ exit, jump + 2 + (ahead + body.size inside + 3) =
      looped.draft.chunk.size := by
    intro jump isExit
    have earlier := aheadEq jump isExit
    omega
  apply (forExit_settles laysLoop sameSome out).thenRule Iff.rfl
  intro _ left _ laysEnd
  rcases laysEnd.leaves with ⟨jumps, scopesAfter, distances⟩
  have scopesLeft : left.draft.scopes =
      { scope with breaks := jumps } :: Scope.addBreaks [] writer.draft.scopes := by
    have added := Scope.addBreaks_loop isLoop jumps writer.draft.scopes
    rw [noBreaks, List.append_nil] at added
    exact scopesAfter.trans added
  exact closeScope_lays described.fits.isScoped depthEq laysEnd scopesLeft rfl (distances 0)
    fun _ => .nil

theorem generate_whileLoop (condition : Expression) (body : Statement) :
    (whileLoop condition body).generate = (do
      openScope .loop
      let start ← codeSize
      let exit ← generateCondition (some condition)
      body.generate
      emitLoop start
      forExit exit
      closeScope) := by
  simp [generate, generateCondition, forExit]

theorem whileLoop_ruled {condition : Expression} (ruled : body.Ruled)
    (declares : body.declared = []) : (whileLoop condition body).Ruled := by
  intro site writer use described _ _
  have opened : site.inScope.Describes (writer.onDraft (·.openScope .loop)) use :=
    ⟨described.fits.inside rfl, described.holds, described.room⟩
  have rules : (whileLoop condition body).Lawful site ↔ (∀ value ∈ some condition, value.Small) ∧
      body.Lawful (site.inScope.inLoop.past (condition.size + 4)) ∧
      condition.size + 4 + body.size site.inScope.inLoop + 3 ≤ maxDistance ∧
      ((some condition).isSome = true → 1 + body.size site.inScope.inLoop + 3 ≤ maxDistance) ∧
      ∀ distance ∈ body.exits site.inScope.inLoop (3 + exitSize (some condition)),
        distance ≤ maxDistance := by
    have ahead : 1 + body.size site.inScope.inLoop + 3 = body.size site.inScope.inLoop + 4 := by
      omega
    simp [Lawful, exitSize, ahead]
  rw [Settled, generate_whileLoop, binds_eq_nil rfl, Statement.use, FunctionsFit, ← Use.add_assoc]
  apply Settles.after rfl
  apply Settles.after rfl
  apply (generateCondition_settles opened (some condition)).thenMore rules Use.Fits.left
  rintro exit tested room ⟨tests, rfl⟩
  have sizeEq := tests.size_eq
  apply (rounds_settle ruled declares described rfl rfl rfl tests room sizeEq.symm rfl _).imp
  · intro _ after _ _ adds
    exact adds
  · rintro jump ⟨⟩
    rw [sizeEq]
    simp only [conditionSize, Option.elim_some]
    omega

theorem forLoop_ruled {initial : Statement} {increment : Option Expression}
    (isClause : initial.isClause = true) (ruled : body.Ruled) (declares : body.declared = []) :
    (forLoop initial condition increment body).Ruled := by
  intro site writer use described _ _
  have opened : site.inScope.Describes (writer.onDraft (·.openScope .loop)) use :=
    ⟨described.fits.inside rfl, described.holds, described.room⟩
  have binds : site.inScope.binds initial = initial.declared := by
    simp [Site.binds, Site.inScope]
  rw [Settled, generate, binds_eq_nil rfl, Statement.use, FunctionsFit, ← Use.add_assoc,
    ← Use.add_assoc, ← Use.add_assoc]
  apply Settles.after rfl
  apply (settledAlone_clause isClause opened).thenMore Iff.rfl fun room => room.left.left.left
  intro _ begun room laysBegun
  have describedBegun := laysBegun.describes opened room
  apply Settles.after rfl
  apply (generateCondition_settles describedBegun condition).thenMore Iff.rfl
    fun room => room.left.left
  rintro exit tested roomTested ⟨tests, rfl⟩
  have describedTested : (site.inScope.after initial).Describes tested _ :=
    tests.describes describedBegun roomTested
  apply (generateIncrement_settles describedTested tests.size_eq.symm increment).thenMore Iff.rfl
    Use.Fits.left
  rintro again advanced roomAdvanced ⟨advances, againEq⟩
  have laysStarted := Lays.restart ((laysBegun.trans tests).trans advances) again
  have sizeTested := tests.size_eq
  have sizeAdvanced := advances.size_eq
  have aheadEq : ∀ jump ∈ condition.map fun value => begun.draft.chunk.size + value.size + 1,
      jump + 2 + (1 + incrementSize increment) = advanced.draft.chunk.size := by
    intro jump isExit
    rcases Option.mem_map.mp isExit with ⟨value, rfl, rfl⟩
    rw [sizeAdvanced, sizeTested]
    simp only [conditionSize, Option.elim_some]
    omega
  apply Settles.after rfl
  apply (rounds_settle ruled declares described rfl rfl rfl laysStarted roomAdvanced againEq
    Option.isSome_map aheadEq).imp
  intro _ after _ _ adds
  apply adds.cast _ rfl (fun _ => rfl) rfl
  rw [List.nil_append, List.nil_append, binds, size]
  rfl

end Statement

end StackScript
