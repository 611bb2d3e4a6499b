import StackScript.Proofs.Ruling.Basic

/-!
# Sites and functions under construction

A site says what the rules need to know about a function under construction. `Site.Describes` and
`Site.FitsLoop` say that it tells the truth; behind a stretch of statements the site that follows
tells the truth again.
-/

namespace StackScript

open Compile

/-! ## Code between the statement and its loop does not matter to sizes -/

theorem Site.surplus_past (site : Site) (bytes : Nat) :
    (site.past bytes).surplus = site.surplus := by
  simp only [surplus, past]
  cases site.loop <;> rfl

namespace Statement

@[simp] theorem size_past (statement : Statement) (site : Site) (bytes : Nat) :
    statement.size (site.past bytes) = statement.size site := by
  induction statement generalizing site bytes with
  | sequence first rest ihFirst ihRest =>
    exact congrArg₂ (· + ·) (ihFirst site bytes) (ihRest (site.after first) bytes)
  | block body ih => exact congrArg (· + body.declared.length) (ih site.inScope bytes)
  | conditional condition met unmet ihMet ihUnmet => simp only [size, ihMet, ihUnmet]
  | forLoop initial condition increment body ihInitial ih =>
    have same : initial.size (site.past bytes).inScope = initial.size site.inScope :=
      ihInitial site.inScope bytes
    rw [size, same]
    rfl
  | breakLoop | continueLoop => exact congrArg (· + 3) (site.surplus_past bytes)
  | _ => rfl

@[simp] theorem exits_past (statement : Statement) (site : Site) (bytes ahead : Nat) :
    statement.exits (site.past bytes) ahead = statement.exits site ahead := by
  induction statement generalizing site bytes ahead with
  | sequence first rest ihFirst ihRest =>
    have same : rest.size ((site.past bytes).after first) = rest.size (site.after first) :=
      size_past rest (site.after first) bytes
    rw [exits, same, ihFirst]
    exact congrArg (· ++ _) (ihRest (site.after first) bytes ahead)
  | block body ih => exact ih site.inScope bytes _
  | conditional condition met unmet ihMet ihUnmet => simp only [exits, size_past, ihMet, ihUnmet]
  | _ => rfl

@[simp] theorem use_past (statement : Statement) (site : Site) (bytes : Nat) :
    statement.use (site.past bytes) = statement.use site := by
  induction statement generalizing site bytes with
  | sequence first rest ihFirst ihRest =>
    exact congrArg₂ (· + ·) (ihFirst site bytes) (ihRest (site.after first) bytes)
  | block body ih => exact ih site.inScope bytes
  | conditional condition met unmet ihMet ihUnmet =>
    rw [use, ihMet, ihUnmet]
    rfl
  | forLoop initial condition increment body ihInitial ih =>
    have same : initial.use (site.past bytes).inScope = initial.use site.inScope :=
      ihInitial site.inScope bytes
    rw [use, same]
    rfl
  | _ => rfl

end Statement

/-! ## Sites that tell the truth -/

/-- Whether a site tells the truth about a function under construction, its loops apart. -/
structure Site.Fits (site : Site) (draft : Draft) : Prop where
  kind_eq : draft.kind = site.kind
  outermost_iff : site.isOutermost = true ↔ draft.scopes = []
  nested : Scope.Nested draft.scopes
  locals_eq : ∃ outer : List Local,
    draft.locals = site.scope.map (⟨·, some draft.depth⟩) ++ outer ∧
      site.names = site.scope ++ outer.map (·.name) ∧
      ∀ entry ∈ outer, ∃ depth, entry.depth = some depth ∧ (depth < draft.depth ∨ depth = 0)

/-- Whether the loops are the same. -/
def Site.FitsLoop (site : Site) (draft : Draft) : Prop :=
  match site.loop with
  | none => Scope.innermostLoop? draft.scopes = none
  | some loop => ∃ scope, Scope.innermostLoop? draft.scopes = some scope ∧
      scope.loopStart + loop.behind = draft.chunk.size ∧
      loop.height + draft.countFrom (scope.depth + 1) = draft.locals.length

namespace Site.Fits

variable {site : Site} {draft : Draft}

theorem past (fits : site.Fits draft) (bytes : Nat) : (site.past bytes).Fits draft :=
  ⟨fits.kind_eq, fits.outermost_iff, fits.nested, fits.locals_eq⟩

theorem names_eq (fits : site.Fits draft) : draft.locals.map (·.name) = site.names := by
  rcases fits.locals_eq with ⟨outer, localsEq, namesEq, _⟩
  rw [localsEq, namesEq, List.map_append, List.map_map]
  congr 1
  exact List.map_id _

theorem length_eq (fits : site.Fits draft) : draft.locals.length = site.names.length := by
  rw [← fits.names_eq, List.length_map]

theorem isScoped (fits : site.Fits draft) : draft.Scoped := by
  rcases fits.locals_eq with ⟨outer, localsEq, _, depths⟩
  refine ⟨?_, fits.nested⟩
  intro entry present
  rw [localsEq] at present
  rcases List.mem_append.mp present with inScope | inOuter
  · rcases List.mem_map.mp inScope with ⟨name, _, rfl⟩
    exact ⟨draft.depth, rfl, Nat.le_refl _⟩
  · rcases depths entry inOuter with ⟨depth, depthEq, below⟩
    exact ⟨depth, depthEq, by omega⟩

theorem legal_iff (fits : site.Fits draft) (expression : Expression) :
    expression.Legal draft.locals ↔ expression.Small := by
  rw [Expression.Legal]
  apply and_iff_right
  intro name _ slot entry resolved
  rcases fits.isScoped.initialized entry (Local.mem_of_resolve? resolved) with ⟨depth, depthEq, _⟩
  rw [depthEq]
  simp

end Site.Fits

/-- Whether a site tells the truth about a compiler, which has room for what it holds. -/
structure Site.Describes (site : Site) (writer : Compiler) (use : Use) : Prop where
  fits : site.Fits writer.draft
  holds : writer.draft.pooled.Holds use
  room : use.Fits

namespace Site.Describes

variable {site : Site} {writer : Compiler} {use : Use}

theorem evaluates (described : site.Describes writer use) (value : Expression) :
    Settles value.Small (use + value.use site.names).Fits
      (fun _ after => writer.Adds value.size (use + value.use site.names) after)
      (value.generate writer) :=
  (value.adds described.fits.names_eq described.holds described.room).congr
    (described.fits.legal_iff value) Iff.rfl

theorem evaluatesFor {opcode : Opcode} (described : site.Describes writer use)
    (bare : opcode.operandSize = 0) (value : Expression) :
    Settles value.Small (use + value.use site.names).Fits
      (fun _ after => writer.Adds (value.size + 1) (use + value.use site.names) after)
      ((value.generate >>= fun _ => emit opcode) writer) := by
  apply (described.evaluates value).thenOk
  intro _ valued _ adds
  rcases emit_lays bare adds with ⟨after, ran, emitted⟩
  exact ⟨(), after, ran, emitted⟩

end Site.Describes

/-! ## Behind statements -/

theorem Scope.innermostLoop?_addBreaks_eq (jumps : List Nat) (scopes : List Scope) :
    innermostLoop? (addBreaks jumps scopes) = (innermostLoop? scopes).map fun scope =>
      { scope with breaks := jumps ++ scope.breaks } := by
  induction jumps with
  | nil => simp [addBreaks]
  | cons jump jumps ih =>
    rw [addBreaks, innermostLoop?_addBreak, ih, Option.map_map]
    rfl

namespace Compiler.Lays

variable {writer after : Compiler} {bytes : Nat} {declared : List String} {exits : Nat → List Nat}
  {use use' : Use} {site : Site}

/-- Behind statements the site that follows tells the truth. -/
theorem fits (lays : writer.Lays bytes declared exits use after) (fits : site.Fits writer.draft) :
    (site.bind declared).Fits after.draft := by
  rcases lays.leaves with ⟨jumps, scopesEq, _⟩
  rcases fits.locals_eq with ⟨outer, localsEq, namesEq, depths⟩
  refine ⟨(Draft.kind_eq_of_head_eq lays.head_eq).trans fits.kind_eq, ?_, ?_, outer, ?_, ?_, ?_⟩
  · rw [← List.length_eq_zero_iff, scopesEq, Scope.length_addBreaks, List.length_eq_zero_iff]
    exact fits.outermost_iff
  · rw [scopesEq]
    exact fits.nested.addBreaks jumps
  · rw [lays.locals_eq, localsEq, lays.depth_eq, ← List.append_assoc, ← List.map_append]
    rfl
  · change declared ++ site.names = declared ++ site.scope ++ _
    rw [namesEq, List.append_assoc]
  · rw [lays.depth_eq]
    exact depths

theorem describes (lays : writer.Lays bytes declared exits use' after)
    (described : site.Describes writer use) (room : use'.Fits) :
    (site.bind declared).Describes after use' :=
  ⟨lays.fits described.fits, lays.holds, room⟩

theorem fitsLoop (lays : writer.Lays bytes declared exits use after)
    (fitsLoop : site.FitsLoop writer.draft)
    (deeper : declared ≠ [] → ∀ scope, Scope.innermostLoop? writer.draft.scopes = some scope →
      scope.depth < writer.draft.depth) :
    ((site.bind declared).past bytes).FitsLoop after.draft := by
  rcases lays.leaves with ⟨jumps, scopesEq, _⟩
  rw [Site.FitsLoop] at fitsLoop ⊢
  rw [scopesEq, Scope.innermostLoop?_addBreaks_eq]
  cases loopEq : site.loop with
  | none =>
    rw [loopEq] at fitsLoop
    simp only [Site.past, Site.bind, loopEq, Option.map_none]
    rw [fitsLoop]
    rfl
  | some loop =>
    rw [loopEq] at fitsLoop
    rcases fitsLoop with ⟨scope, found, startEq, heightEq⟩
    simp only [Site.past, Site.bind, loopEq, Option.map_some]
    refine ⟨_, by rw [found]; rfl, ?_, ?_⟩
    · rw [lays.size_eq, ← startEq, Nat.add_assoc]
    · rw [Draft.countFrom_declared lays.locals_eq fun some => deeper some scope found,
        lays.locals_eq, List.length_append, List.length_map, ← heightEq, Nat.add_left_comm]

end Compiler.Lays

end StackScript
