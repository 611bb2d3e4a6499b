import StackScript.Proofs.Ruling.Site

/-!
# Statements are written exactly if they are lawful

Writing a statement settles what its rules say: it succeeds exactly if the statement is lawful where
it stands and the pool has room for its constants.
-/

namespace StackScript

open Compile

namespace Statement

/-- Whether writing settles the rules here. -/
def Settled (statement : Statement) (site : Site) (writer : Compiler) (use : Use) : Prop :=
  Settles (statement.Lawful site) ((use + statement.use site).Fits ∧ statement.FunctionsFit)
    (fun _ after => writer.Lays (statement.size site) (site.binds statement)
      (statement.exits site) (use + statement.use site) after)
    (statement.generate writer)

/-- Whether writing settles the rules. -/
def Ruled (statement : Statement) : Prop :=
  ∀ ⦃site : Site⦄ ⦃writer : Compiler⦄ ⦃use : Use⦄, site.Describes writer use →
    site.FitsLoop writer.draft → writer.draft.Admits statement →
    statement.Settled site writer use

/-- What `Settled` says of a statement that has no functions and leaves no loop. -/
def SettledAlone (statement : Statement) (site : Site) (writer : Compiler) (use : Use) : Prop :=
  Settles (statement.Lawful site) (use + statement.use site).Fits
    (fun _ after => writer.Lays (statement.size site) (site.binds statement) (fun _ => [])
      (use + statement.use site) after)
    (statement.generate writer)

variable {site : Site} {writer middle : Compiler} {use : Use} {statement : Statement}

theorem SettledAlone.settled (settles : statement.SettledAlone site writer use)
    (noFunctions : statement.FunctionsFit) (noExits : ∀ ahead, statement.exits site ahead = []) :
    statement.Settled site writer use := by
  rw [Settled, and_iff_left noFunctions, funext noExits]
  exact settles

theorem binds_eq_nil (declares : statement.declared = []) : site.binds statement = [] := by
  simp [Site.binds, declares]

/-! ## Plain statements -/

theorem settledAlone_empty (described : site.Describes writer use) :
    empty.SettledAlone site writer use := by
  have none : use + empty.use site = use := use.add_none
  rw [SettledAlone, none, binds_eq_nil rfl]
  exact ⟨trivial, described.room, .refl described.holds⟩

theorem settledAlone_expression (described : site.Describes writer use) (value : Expression) :
    (expression value).SettledAlone site writer use := by
  rw [SettledAlone, binds_eq_nil rfl]
  exact described.evaluatesFor rfl value

theorem settledAlone_print (described : site.Describes writer use) (value : Expression) :
    (print value).SettledAlone site writer use := by
  rw [SettledAlone, binds_eq_nil rfl]
  exact described.evaluatesFor rfl value

theorem emitReturn_adds {bytes : Nat} (adds : writer.Adds bytes use middle) :
    ∃ after, emitReturn middle = .ok () after ∧ writer.Adds (bytes + 2) use after := by
  rcases emit_lays (show Opcode.loadNil.operandSize = 0 from rfl) adds with ⟨loaded, ran, loads⟩
  rcases emit_lays (show Opcode.ret.operandSize = 0 from rfl) loads with ⟨after, ranRet, returns⟩
  exact ⟨after, (bind_of_ok ran).trans ranRet, returns⟩

theorem settledAlone_returnValue (described : site.Describes writer use)
    (value : Option Expression) : (returnValue value).SettledAlone site writer use := by
  rw [SettledAlone, binds_eq_nil rfl, generate, Lawful, ← described.fits.kind_eq, get_bind]
  cases kindEq : writer.draft.kind with
  | script =>
    apply Settles.ofFail
    rintro ⟨isFunction, _⟩
    cases isFunction
  | function =>
    cases value with
    | none =>
      have nothing : use + (returnValue none).use site = use := use.add_none
      rcases emitReturn_adds (.refl described.holds) with ⟨after, ran, adds⟩
      change Settles _ _ _ (emitReturn writer)
      rw [ran, nothing]
      exact ⟨⟨rfl, by simp⟩, described.room, adds⟩
    | some result => exact (described.evaluatesFor rfl result).congr (by simp) Iff.rfl

/-! ## Leaving and repeating a loop -/

theorem surplus_popped {loop : LoopSite} (described : site.Describes writer use)
    (fitsLoop : site.FitsLoop writer.draft) (loopEq : site.loop = some loop) :
    ∃ scope popped, Scope.innermostLoop? writer.draft.scopes = some scope ∧
      emitPops (writer.draft.countFrom (scope.depth + 1)) writer = .ok () popped ∧
      writer.Adds site.surplus use popped ∧
      scope.loopStart + (loop.behind + site.surplus + 3) = popped.draft.chunk.size + 3 := by
  rw [Site.FitsLoop, loopEq] at fitsLoop
  rcases fitsLoop with ⟨scope, found, startEq, heightEq⟩
  have lengthEq := described.fits.length_eq
  have surplusEq : site.surplus = writer.draft.countFrom (scope.depth + 1) := by
    rw [Site.surplus, loopEq, Option.elim_some]
    omega
  rcases emitPops_adds site.surplus (.refl described.holds) with ⟨popped, ran, pops⟩
  have sizeEq := pops.size_eq
  rw [surplusEq] at ran
  rw [Nat.zero_add] at pops
  exact ⟨scope, popped, found, ran, pops, by omega⟩

theorem breakLoop_ruled : breakLoop.Ruled := by
  intro site writer use described fitsLoop _
  have noFunctions : breakLoop.FunctionsFit := trivial
  have nothing : use + breakLoop.use site = use := use.add_none
  rw [Settled, generate, binds_eq_nil rfl, and_iff_left noFunctions, nothing, Lawful, get_bind]
  cases loopEq : site.loop with
  | none =>
    rw [Site.FitsLoop, loopEq] at fitsLoop
    rw [fitsLoop]
    exact Settles.ofFail (by simp)
  | some loop =>
    rcases surplus_popped described fitsLoop loopEq with ⟨scope, popped, found, ran, pops, _⟩
    have jumps := pops.write .jump placeholder popped.previous.line
    rw [found]
    apply Settles.after ran
    apply Settles.after (emitJump_apply rfl popped)
    refine ⟨by simp, described.room, jumps.head_eq, jumps.locals_eq,
      ⟨[popped.draft.chunk.size + 1], ?_, ?_⟩, jumps.size_eq, jumps.holds, jumps.enclosing_eq⟩
    · exact congrArg (Scope.addBreak (popped.draft.chunk.size + 1)) jumps.scopes_eq
    · intro ahead
      have written : (popped.onDraft (·.write .jump placeholder
          popped.previous.line)).draft.chunk.size = popped.draft.chunk.size + 1 + 2 := by
        simp [Compiler.onDraft, Draft.write, Opcode.size, Opcode.operandSize]
      exact .cons (congrArg (· + ahead) written.symm) .nil

theorem continueLoop_ruled : continueLoop.Ruled := by
  intro site writer use described fitsLoop _
  have nothing : use + continueLoop.use site = use := use.add_none
  refine SettledAlone.settled ?_ trivial fun _ => rfl
  rw [SettledAlone, generate, binds_eq_nil rfl, nothing, Lawful, get_bind]
  cases loopEq : site.loop with
  | none =>
    rw [Site.FitsLoop, loopEq] at fitsLoop
    rw [fitsLoop]
    exact Settles.ofFail (by simp)
  | some loop =>
    rcases surplus_popped described fitsLoop loopEq with ⟨scope, popped, found, ran, pops, back⟩
    rw [found]
    apply Settles.after ran
    exact (emitLoop_lays pops back).congr (by simp) (iff_true_intro described.room).symm

/-! ## Statements in a row -/

theorem Ruled.behind (ruled : statement.Ruled) {bytes : Nat} {declared : List String}
    {exits : Nat → List Nat} {earlier : Use} (described : site.Describes writer earlier)
    (fitsLoop : site.FitsLoop writer.draft) (lays : writer.Lays bytes declared exits use middle)
    (deeper : declared ++ statement.declared ≠ [] → ∀ scope,
      Scope.innermostLoop? writer.draft.scopes = some scope → scope.depth < writer.draft.depth)
    (room : use.Fits) :
    Settles (statement.Lawful ((site.bind declared).past bytes))
      ((use + statement.use (site.bind declared)).Fits ∧ statement.FunctionsFit)
      (fun _ after => writer.Lays (bytes + statement.size (site.bind declared))
        (site.binds statement ++ declared)
        (fun ahead => statement.exits (site.bind declared) ahead ++
          exits (statement.size (site.bind declared) + ahead))
        (use + statement.use (site.bind declared)) after)
      (statement.generate middle) := by
  have describedMiddle : ((site.bind declared).past bytes).Describes middle use :=
    ⟨(lays.fits described.fits).past bytes, lays.holds, room⟩
  have fitsLoopMiddle := lays.fitsLoop fitsLoop fun some => deeper (by simp [some])
  have admits : middle.draft.Admits statement := by
    intro declares scope found
    rcases lays.leaves with ⟨jumps, scopesEq, _⟩
    rw [scopesEq] at found
    rcases Scope.innermostLoop?_addBreaks found with ⟨same, foundBefore, depthEq, _⟩
    rw [lays.depth_eq, depthEq]
    exact deeper (by simp [declares]) same foundBefore
  have settles := ruled describedMiddle fitsLoopMiddle admits
  rw [Settled, use_past] at settles
  apply settles.imp
  intro _ after _ _ laysStatement
  apply (lays.trans laysStatement).cast
  · rw [size_past]
  · rfl
  · intro ahead
    rw [exits_past, size_past]
  · rfl

theorem sequence_ruled {first rest : Statement} (ruledFirst : first.Ruled)
    (ruledRest : rest.Ruled) : (sequence first rest).Ruled := by
  intro site writer use described fitsLoop admits
  have admitsFirst : writer.draft.Admits first := fun declares =>
    admits (by simp [declared, declares])
  rw [Settled, generate, Statement.use, FunctionsFit, ← Use.add_assoc]
  apply (ruledFirst described fitsLoop admitsFirst).andMore Iff.rfl Use.Fits.left
  intro _ middle room lays
  have deeper : site.binds first ++ rest.declared ≠ [] → ∀ scope,
      Scope.innermostLoop? writer.draft.scopes = some scope →
      scope.depth < writer.draft.depth := by
    intro some
    apply admits
    intro none
    apply some
    simp only [declared, List.append_eq_nil_iff] at none
    simp [Site.binds, none]
  apply (ruledRest.behind described fitsLoop lays deeper room).imp
  intro _ after _ _ laysRest
  apply laysRest.cast rfl _ (fun _ => rfl) rfl
  simp only [Site.binds, declared]
  split <;> simp

end Statement

end StackScript
