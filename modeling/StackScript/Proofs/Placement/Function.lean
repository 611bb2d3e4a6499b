import StackScript.Proofs.Placement.Control

/-!
# Functions in their final code

A function is written into a draft of its own. When its body and the final return are written,
nothing is open any more, so the draft is its own final code.
-/

namespace StackScript

open Compile

/-- What holds of a finished chunk. -/
structure Chunk.Finished (chunk : Chunk Constant) : Prop where
  constants_le : chunk.constants.size ≤ 256
  lines_eq : chunk.lines.size = chunk.starts.size
  cut : Walk chunk.code 0 chunk.starts.toList chunk.size
  functions_written : ∀ (place : Nat) (function : Function),
    chunk.constants[place]? = some (.function function) → function.Written

namespace Statement

variable {layout : Layout} {before after : Draft} {stops : List Draft} {parameters : List String}
  {body : Statement} {name : String}

theorem implements_of_stated {done : Draft} (ready : before.Ready layout)
    (fresh : before.chunk = .empty) (noLoop : layout.loop = none)
    (stated : body.Stated layout before done stops)
    (returns : Effect emitReturn done () after) :
    after.chunk.Implements layout body (stops.map Draft.mark) ∧ after.chunk.Finished ∧
      after.name = before.name ∧ after.arity = before.arity := by
  rcases stated with ⟨breaks, stretch, alone⟩
  rw [alone noLoop] at stretch
  have whole := stretch.andThen (emitReturn_wrote returns)
  have valid := whole.valid ready.valid
  rcases whole.recovers after.chunk [] (by simp) (Chunk.Completes.refl _) with
    ⟨completes, code, found⟩
  have sizeEq : before.chunk.size = 0 := by
    rw [fresh]
    rfl
  rcases completes.cut with ⟨offsets, startsEq, walk⟩
  rw [sizeEq] at code walk
  rw [fresh] at startsEq
  simp only [Chunk.empty, List.nil_append] at startsEq
  rw [← startsEq] at walk
  exact ⟨⟨_, code (by simp), found⟩,
    ⟨valid.constants_le, valid.lines_eq, walk, valid.functions_written⟩,
    congrArg (·.1) whole.head_eq,
    congrArg (·.2.1) whole.head_eq⟩

theorem parameters_eq (inside : 0 < before.depth)
    (writes : WritesParameters parameters before after) :
    after = { before with
        arity := before.arity + parameters.length
        locals := parameters.reverse.map (⟨·, some before.depth⟩) ++ before.locals } ∧
      (before.arity ≤ 255 → before.arity + parameters.length ≤ 255) ∧
      (before.locals.length ≤ 256 → parameters.length + before.locals.length ≤ 256) := by
  induction parameters generalizing before with
  | nil =>
    rcases writes with rfl
    simp
  | cons name rest ih =>
    rcases writes with ⟨binding, declaredDraft, defined, few, declares, defines, writesRest⟩
    rcases declares with ⟨_, rfl, _, room, rfl⟩ | ⟨outside, _⟩
    · have definedEq := effect_onDraft defines
      subst definedEq
      have stillInside : 0 < (Draft.initializeLocal
          (Draft.addLocal { before with arity := before.arity + 1 } name)).depth := inside
      rcases ih stillInside writesRest with ⟨rfl, arityLe, localsLe⟩
      simp only [maxArguments] at few
      simp only [maxLocals] at room
      simp only [Draft.initializeLocal, Draft.addLocal, List.length_cons] at arityLe localsLe
      refine ⟨?_, ?_, ?_⟩
      · simp [Draft.initializeLocal, Draft.addLocal, Draft.depth, Nat.add_assoc, Nat.add_comm 1]
      · intro bound
        have total := arityLe (by omega)
        simp only [List.length_cons]
        omega
      · intro bound
        have total := localsLe (by omega)
        simp only [List.length_cons]
        omega
    · exact absurd outside (Nat.ne_of_gt inside)

theorem parameters_ready
    (writes : WritesParameters parameters ((Draft.named name).openScope .function) after) :
    after.Ready (.function name parameters) ∧ after.chunk = .empty ∧ after.name = name ∧
      after.arity = parameters.length ∧ parameters.length ≤ 255 := by
  have inside : 0 < ((Draft.named name).openScope .function).depth := Nat.zero_lt_one
  rcases parameters_eq inside writes with ⟨rfl, few, room⟩
  have fewer := few (Nat.zero_le _)
  have roomy := room (by simp [Draft.openScope, Draft.named])
  simp only [Draft.openScope, Draft.named, List.length_singleton, Nat.zero_add] at fewer roomy
  refine ⟨⟨⟨?_, ?_, ?_⟩, ?_⟩, rfl, rfl, Nat.zero_add _, fewer⟩
  · refine ⟨?_, Nat.zero_le _, ?_, rfl, ?_⟩
    · intro other place known
      simp [Draft.openScope, Draft.named] at known
    · simpa [Draft.openScope, Draft.named] using roomy
    · intro place function found
      simp [Draft.openScope, Draft.named, Chunk.empty] at found
  · refine ⟨?_, rfl, trivial⟩
    intro entry present
    rcases List.mem_append.mp present with own | older
    · rcases List.mem_map.mp own with ⟨parameter, _, rfl⟩
      exact ⟨_, rfl, Nat.le_refl _⟩
    · rw [List.mem_singleton.mp older]
      exact ⟨0, rfl, Nat.zero_le _⟩
  · refine ⟨?_, rfl, rfl, rfl⟩
    simp [Layout.function, Draft.openScope, Draft.named, Function.comp_def]
  · intro scope found
    simp [Scope.innermostLoop?, Draft.openScope, Draft.named] at found

theorem implements_of_writesFunction {function : Function} (bodyFound : body.Found)
    (writes : WritesFunction name parameters body function stops) :
    function.chunk.Implements (.function name parameters) body (stops.map Draft.mark) ∧
      function.chunk.Finished ∧ function.name = name ∧ function.arity = parameters.length ∧
      parameters.length ≤ 255 := by
  rcases writes with ⟨begun, done, inner, writesParameters, writesBody, returns, rfl⟩
  rcases parameters_ready writesParameters with ⟨ready, fresh, nameEq, arityEq, few⟩
  have admits : begun.Admits body := by
    intro _ scope found
    rcases ready.fitsLoop scope found with ⟨loop, noLoop, _⟩
    cases noLoop
  rcases implements_of_stated ready fresh rfl (bodyFound writesBody ready admits) returns with
    ⟨code, finished, sameName, sameArity⟩
  exact ⟨code, finished, sameName.trans nameEq, sameArity.trans arityEq, few⟩

end Statement

theorem Draft.functionConstant_stretch {before after : Draft} {function : Function}
    (written : function.Written)
    (effect : Effect (emitConstant (.function function)) before () after) :
    before.Stretch after [] [] [] 1 (fun final => ∃ place,
      final.Has before.chunk.size (.constant place) ∧
      final.constants[place]? = some (.function function) ∧
      final.rank place = before.functions) ∧ after.chunk.size = before.chunk.size + 2 := by
  rcases effect_emitConstant effect with ⟨room, line, rfl⟩
  have small : before.chunk.constants.size < Nat.pow 256 Opcode.constant.operandSize := room
  refine ⟨⟨⟨?_, ?_, ?_, .nil, ?_⟩, rfl, rfl, rfl⟩, by simp [Draft.write, Draft.pool]; rfl⟩
  · intro valid
    refine (valid.pool room ?_).write _ _ _
    intro other same
    cases same
    exact written
  · exact Nat.le_trans (Nat.le_add_right _ _) (Nat.le_of_eq (Chunk.size_write _ _ line).symm)
  · simp [functions_eq_countP, Draft.write, Draft.pool, Datum.function?]
  · intro final holes below completes
    have belowPool : ∀ hole ∈ holes, hole + 2 ≤ (before.pool (.function function)).chunk.size :=
      below
    rcases Chunk.Completes.of_write belowPool small completes with ⟨completesPool, found⟩
    rcases Chunk.Completes.of_push completesPool with ⟨completesBefore, held⟩
    exact ⟨completesBefore, _, found, held, completesBefore.rank_eq (Nat.le_refl _)⟩

namespace Statement

variable {layout : Layout} {before after : Draft} {stops : List Draft}

theorem funDeclaration_plain {name : String} {parameters : List String} {body : Statement}
    (bodyFound : body.Found) (placed : body.Placed) (meets : before.Meets layout)
    (writes : (Statement.funDeclaration name parameters body).Writes before after stops) :
    (Statement.funDeclaration name parameters body).Plain layout before after stops := by
  rcases writes with ⟨binding, declaredDraft, visible, begun, done, inner, held, stopsInside,
    declares, makesVisible, writesParameters, writesBody, returns, holds, defines, rfl⟩
  have writesInner : WritesFunction name parameters body inner.function stopsInside :=
    ⟨begun, done, inner, writesParameters, writesBody, returns, rfl⟩
  rcases implements_of_writesFunction bodyFound writesInner with
    ⟨⟨finish, codeBody, finishes⟩, _, nameEq, arityEq, _⟩
  rcases Draft.functionConstant_stretch ⟨_, _, _, _, placed, writesInner⟩ holds with
    ⟨stretchHeld, heldSize⟩
  rcases declares_cases declares meets.fits with
    ⟨inside, rfl, room, rfl⟩ | ⟨outside, place, rfl, named⟩
  · have visibleEq := effect_onDraft makesVisible
    have definedEq := effect_onDraft defines
    subst visibleEq
    subst definedEq
    have binds : layout.binds (.funDeclaration name parameters body) = [name] := by
      simp [Layout.binds, declared, inside]
    refine plain_of_stretch ((Draft.Stretch.initialized stretchHeld room).cast rfl rfl
      binds.symm rfl)
      meets.fits ?_
    rintro final ⟨place, found, pooled, ranked⟩
    refine ⟨place, inner.function, finish, _, found, pooled, ?_, nameEq, arityEq, codeBody,
      finishes, ?_, rfl⟩
    · rw [ranked, meets.fits.functions_eq]
      rfl
    · simp only [DefinesAt, inside]
      exact heldSize
  · rcases effect_pure makesVisible with ⟨_, rfl⟩
    rcases Draft.Wrote.nameConstant meets.valid named with ⟨wroteName, sameSize⟩
    rcases Draft.Wrote.emitWith rfl defines with ⟨wroteDefine, size⟩
    have binds : layout.binds (.funDeclaration name parameters body) = [] := by
      simp [Layout.binds, outside]
    refine plain_of_stretch (((wroteName.andThen stretchHeld).andThen wroteDefine).cast rfl rfl
      binds.symm rfl) meets.fits ?_
    rintro final ⟨⟨names, place, found, pooled, ranked⟩, foundDefine⟩
    rw [sameSize] at found
    rw [heldSize, sameSize] at foundDefine
    refine ⟨place, inner.function, finish, _, found, pooled, ?_, nameEq, arityEq, codeBody,
      finishes, ?_, rfl⟩
    · rw [ranked, meets.fits.functions_eq]
      exact wroteName.functions_eq
    · simp only [DefinesAt, outside, if_true]
      exact ⟨_, foundDefine, names, by omega⟩

theorem found (statement : Statement) (placed : statement.Placed) : statement.Found := by
  induction statement with
  | empty =>
    rintro layout before after stops ⟨rfl, rfl⟩ ready admits
    exact (empty_plain layout _).stated
  | sequence first rest ihFirst ihRest =>
    rintro layout before after stops ⟨middle, stopsFirst, stopsRest, writesFirst, writesRest,
      rfl⟩ ready admits
    have admitsFirst : before.Admits first := fun declares =>
      admits (by simp [declared, declares])
    have admitsRest : before.Admits rest := fun declares =>
      admits (by simp [declared, declares])
    have firstStated := ihFirst placed.1 writesFirst ready admitsFirst
    rcases firstStated with ⟨breaks, stretch, properties⟩
    have readyRest := stretch.ready ready admitsFirst
    exact sequence_stated ⟨breaks, stretch, properties⟩
      (ihRest placed.2 writesRest readyRest (stretch.admits admitsRest))
  | expression value =>
    intro layout before after stops writes ready _
    exact (expression_plain ready.toMeets writes).stated
  | print value =>
    intro layout before after stops writes ready _
    exact (print_plain ready.toMeets writes).stated
  | varDeclaration name initial =>
    intro layout before after stops writes ready _
    exact (varDeclaration_plain ready.toMeets writes).stated
  | funDeclaration name parameters body ih =>
    intro layout before after stops writes ready _
    exact (funDeclaration_plain (ih placed) placed ready.toMeets writes).stated
  | block body ih =>
    rintro layout before after stops ⟨opened, done, stopsInside, opens, writesBody, closes, rfl⟩
      ready admits
    have openedEq := effect_openScope opens
    subst openedEq
    exact block_stated ready.toMeets
      (ih placed writesBody ⟨ready.openScope .block, ready.fitsLoop⟩
        (ready.tidy.admits_openBlock body)) closes
  | conditional condition met unmet ihMet ihUnmet =>
    exact conditional_found (ihMet placed.1) placed.2.1 (ihUnmet placed.2.2.1) placed.2.2.2
  | whileLoop condition body ih => exact whileLoop_found (ih placed.1) placed.2
  | forLoop initial condition increment body _ ih =>
    exact forLoop_found placed.1 (ih placed.2.1) placed.2.2
  | breakLoop =>
    intro layout before after stops writes ready _
    exact breakLoop_stated ready writes
  | continueLoop =>
    intro layout before after stops writes ready _
    exact (continueLoop_plain ready writes).stated
  | returnValue value =>
    intro layout before after stops writes ready _
    exact (returnValue_plain ready.toMeets writes).stated

theorem implements_of_writesScript {program : Statement} {script : Function}
    (placed : program.Placed) (writes : WritesScript program script stops) :
    script.chunk.Implements .script program (stops.map Draft.mark) ∧ script.chunk.Finished ∧
      script.name = Function.scriptName ∧ script.arity = 0 := by
  rcases writes with ⟨done, finished, writesProgram, returns, rfl⟩
  have ready : Draft.script.Ready .script := by
    refine ⟨⟨⟨?_, Nat.zero_le _, by decide, rfl, ?_⟩, ⟨?_, trivial⟩, rfl, rfl, rfl, rfl⟩, ?_⟩
    · intro name place known
      simp [Draft.script] at known
    · intro place function found
      simp [Draft.script, Chunk.empty] at found
    · intro entry present
      rw [List.mem_singleton.mp present]
      exact ⟨0, rfl, Nat.zero_le _⟩
    · intro scope found
      cases found
  have admits : Draft.script.Admits program := by
    intro _ scope found
    cases found
  exact implements_of_stated ready rfl rfl (program.found placed writesProgram ready admits) returns

end Statement

end StackScript
