import StackScript.Proofs.Ruling.Control

/-!
# Programs are written exactly if they are lawful

A function has its own locals, its own constants and its own distances; for the code around it it is
one constant. With that, writing any statement settles what its rules say, and so does writing a
whole program.
-/

namespace StackScript

open Compile

/-! ## Parameters -/

structure Compiler.Begins (outer : Compiler) (name : String) (parameters : List String)
    (writer : Compiler) : Prop where
  described : (Site.function name parameters).Describes writer .none
  arity_eq : writer.draft.arity = parameters.length
  noLoop : Scope.innermostLoop? writer.draft.scopes = none
  enclosing_eq : writer.enclosing = outer.draft :: outer.enclosing

namespace Compile

variable {outer writer : Compiler} {name : String} {earlier : List String}

theorem parameterAs_settles (begins : outer.Begins name earlier writer)
    (few : earlier.length ≤ maxArguments) (parameter : String) :
    Settles (earlier.length < maxArguments ∧ parameter ∉ earlier) True
      (fun _ after => outer.Begins name (earlier ++ [parameter]) after)
      (parameterAs parameter writer) := by
  change Settles _ _ _ ((if writer.draft.arity = maxArguments then fail .tooManyParameters else do
    modify (·.onDraft fun draft => { draft with arity := draft.arity + 1 })
    define (← declareAs parameter) : Compile Unit) writer)
  rw [begins.arity_eq]
  by_cases full : earlier.length = maxArguments
  · rw [if_pos full]
    apply Settles.ofFail
    rintro ⟨fewer, _⟩
    omega
  · rw [if_neg full]
    have fewer : earlier.length < maxArguments := by omega
    have fits := begins.described.fits
    have counted : (Site.function name earlier).Describes (writer.onDraft fun draft =>
        { draft with arity := draft.arity + 1 }) .none :=
      ⟨⟨fits.kind_eq, fits.outermost_iff, fits.nested, fits.locals_eq⟩, begins.described.holds,
        begins.described.room⟩
    have rules : (Site.function name earlier).Admits parameter ↔
        earlier.length < maxArguments ∧ parameter ∉ earlier := by
      have slot : earlier.length + 1 < maxLocals := Nat.succ_lt_succ fewer
      simp [Site.Admits, Site.function, slot, fewer]
    apply Settles.after rfl
    apply ((declareAs_settles counted parameter).thenOk _).congr rules
      (iff_true_intro (Nat.zero_le _))
    intro _ declared room binds
    rcases binds.define with ⟨after, ran, lays⟩
    have described := lays.describes counted room
    have siteEq : (Site.function name earlier).bind ((Site.function name earlier).bound parameter) =
        Site.function name (earlier ++ [parameter]) := by
      simp [Site.bind, Site.bound, Site.function]
    rw [siteEq] at described
    refine ⟨(), after, ran, described, ?_, ?_, lays.enclosing_eq.trans begins.enclosing_eq⟩
    · rw [List.length_append, ← begins.arity_eq]
      exact congrArg (·.2.1) lays.head_eq
    · rw [lays.scopes_eq]
      exact begins.noLoop

/-- The parameters of a function can be written if they are few and have different names. -/
theorem parameters_settle (parameters : List String) (begins : outer.Begins name earlier writer)
    (few : earlier.length ≤ maxArguments) (distinct : earlier.Nodup) :
    Settles (earlier.length + parameters.length ≤ maxArguments ∧ (earlier ++ parameters).Nodup)
      True (fun _ after => outer.Begins name (earlier ++ parameters) after)
      (parameters.forM parameterAs writer) := by
  induction parameters generalizing writer earlier with
  | nil =>
    rw [List.append_nil]
    exact ⟨⟨few, distinct⟩, trivial, begins⟩
  | cons first rest ih =>
    have rules : earlier.length + (first :: rest).length ≤ maxArguments ∧
        (earlier ++ first :: rest).Nodup ↔
        (earlier.length < maxArguments ∧ first ∉ earlier) ∧
          (earlier ++ [first]).length + rest.length ≤ maxArguments ∧
            (earlier ++ [first] ++ rest).Nodup := by
      rw [List.append_assoc, List.singleton_append, List.length_append, List.length_cons,
        List.length_singleton]
      constructor
      · rintro ⟨short, different⟩
        refine ⟨⟨by omega, ?_⟩, by omega, different⟩
        intro again
        exact (List.disjoint_of_nodup_append different) again List.mem_cons_self
      · rintro ⟨_, short, different⟩
        exact ⟨by omega, different⟩
    apply (parameterAs_settles begins few first).andThen rules (iff_of_eq (true_and _)).symm
    rintro _ after ⟨fewer, differs⟩ _ beginsMore
    have fewMore : (earlier ++ [first]).length ≤ maxArguments := by
      rw [List.length_append]
      exact fewer
    have distinctMore : (earlier ++ [first]).Nodup :=
      List.nodup_append'.mpr ⟨distinct, List.nodup_singleton first, by simpa using differs⟩
    apply (ih beginsMore fewMore distinctMore).imp
    intro _ last _ _ beginsAll
    rwa [List.append_assoc] at beginsAll

end Compile

/-! ## Functions -/

def Compiler.entering (writer : Compiler) (name : String) : Compiler :=
  { writer with
    draft := (Draft.named name).openScope .function
    enclosing := writer.draft :: writer.enclosing }

theorem Compiler.begins_entering (writer : Compiler) (name : String) :
    writer.Begins name [] (writer.entering name) := by
  refine ⟨⟨⟨rfl, ?_, ⟨rfl, trivial⟩, [⟨name, some 0⟩], rfl, rfl, ?_⟩, .empty, Nat.zero_le _⟩, rfl,
    rfl, rfl⟩
  · simp [Site.function, entering, Draft.openScope]
  · simp

namespace Compile

variable {use : Use} {writer : Compiler}

theorem endFunction_adds {returned : Compiler} (holds : writer.draft.pooled.Holds use)
    (enclosingEq : returned.enclosing = writer.draft :: writer.enclosing) :
    ∃ function after, endFunction returned = .ok function after ∧ writer.Adds 0 use after := by
  refine ⟨_, _, rfl, ?_⟩
  rw [enclosingEq]
  exact .of_frame (.refl _) rfl holds rfl

/-- Writes a function. -/
def writeFunction (name : String) (parameters : List String) (body : Statement) :
    Compile Function := do
  beginFunctionAs name
  parameters.forM parameterAs
  body.generate
  emitReturn
  endFunction

theorem generate_funDeclaration (name : String) (parameters : List String) (body : Statement) :
    (Statement.funDeclaration name parameters body).generate = (do
      let binding ← declareAs name
      makeVisible binding
      let function ← writeFunction name parameters body
      emitConstant (.function function)
      define binding) := by
  simp [Statement.generate, writeFunction]

theorem writeFunction_settles (holds : writer.draft.pooled.Holds use) {name : String}
    {parameters : List String} {body : Statement} (ruled : body.Ruled) :
    Settles (parameters.length ≤ maxArguments ∧ parameters.Nodup ∧
        body.Lawful (.function name parameters))
      ((body.use (.function name parameters)).Fits ∧ body.FunctionsFit)
      (fun _ after => writer.Adds 0 use after)
      (writeFunction name parameters body writer) := by
  have settles := parameters_settle parameters (writer.begins_entering name) (Nat.zero_le _)
    List.nodup_nil
  rw [List.nil_append, List.length_nil, Nat.zero_add] at settles
  rw [writeFunction]
  apply Settles.after rfl
  apply settles.andThen and_assoc.symm (iff_of_eq (true_and _)).symm
  intro _ begun _ _ begins
  have settlesBody := ruled begins.described begins.noLoop (by simp [Draft.Admits, begins.noLoop])
  rw [Statement.Settled, Use.none_add] at settlesBody
  apply settlesBody.thenOk
  intro _ written _ lays
  rcases Statement.emitReturn_adds (.refl lays.holds) with ⟨returned, ran, returns⟩
  have enclosingEq := returns.enclosing_eq.trans (lays.enclosing_eq.trans begins.enclosing_eq)
  rcases endFunction_adds holds enclosingEq with ⟨function, after, ended, adds⟩
  exact ⟨function, after, (bind_of_ok ran).trans ended, adds⟩

theorem emitConstant_adds {middle : Compiler} {bytes : Nat} (adds : writer.Adds bytes use middle)
    (constant : Constant) :
    Settles True (use + .literal).Fits
      (fun _ after => writer.Adds (bytes + 2) (use + .literal) after)
      (emitConstant constant middle) := by
  have held := adds.holds.add constant
  have pooled : middle.Adds 0 (use + .literal) (middle.onDraft fun draft =>
      draft.withPool (middle.draft.pooled.add constant)) :=
    .of_frame ⟨rfl, rfl, rfl⟩ rfl held rfl
  rw [Use.Fits, ← held.size_eq]
  apply (emitConstant_settles constant).imp
  rintro _ _ _ _ rfl
  exact (adds.trans pooled).write .constant middle.draft.pooled.size middle.previous.line

end Compile

namespace Statement

theorem funDeclaration_ruled {name : String} {parameters : List String} {body : Statement}
    (ruled : body.Ruled) : (funDeclaration name parameters body).Ruled := by
  intro site writer use described _ _
  rw [Settled, generate_funDeclaration, Statement.use, ← Use.add_assoc]
  apply (declareAs_settles described name).thenMore Iff.rfl Use.Fits.left
  intro binding declared _ binds
  rcases binds.visible with ⟨visible, ran, sees⟩
  apply Settles.after ran
  apply (writeFunction_settles sees.holds ruled).andThen (iff_of_eq (and_true _)).symm and_comm
  intro function written _ _ writes
  apply (emitConstant_adds writes (.function function)).thenOk
  intro _ loaded _ loads
  rcases (sees.andAdds loads).define with ⟨after, ran, lays⟩
  exact ⟨(), after, ran, lays⟩

/-! ## Programs -/

theorem ruled (statement : Statement) (placed : statement.Placed) : statement.Ruled := by
  induction statement with
  | empty =>
    exact fun _ _ _ described _ _ => (settledAlone_empty described).settled trivial fun _ => rfl
  | expression value =>
    exact fun _ _ _ described _ _ =>
      (settledAlone_expression described value).settled trivial fun _ => rfl
  | print value =>
    exact fun _ _ _ described _ _ =>
      (settledAlone_print described value).settled trivial fun _ => rfl
  | returnValue value =>
    exact fun _ _ _ described _ _ =>
      (settledAlone_returnValue described value).settled trivial fun _ => rfl
  | varDeclaration name initial =>
    exact fun _ _ _ described _ _ =>
      (settledAlone_varDeclaration described name initial).settled trivial fun _ => rfl
  | sequence first rest ihFirst ihRest =>
    exact sequence_ruled (ihFirst placed.1) (ihRest placed.2)
  | funDeclaration name parameters body ih => exact funDeclaration_ruled (ih placed)
  | block body ih => exact block_ruled (ih placed)
  | conditional condition met unmet ihMet ihUnmet =>
    rcases placed with ⟨placedMet, noneMet, placedUnmet, noneUnmet⟩
    exact conditional_ruled (ihMet placedMet) (ihUnmet placedUnmet) noneMet noneUnmet
  | whileLoop condition body ih => exact whileLoop_ruled (ih placed.1) placed.2
  | forLoop initial condition increment body _ ih =>
    rcases placed with ⟨isClause, placedBody, none⟩
    exact forLoop_ruled isClause (ih placedBody) none
  | breakLoop => exact breakLoop_ruled
  | continueLoop => exact continueLoop_ruled

theorem script_described (tokens : List Token) :
    Site.script.Describes (Compiler.ofTokens tokens) .none := by
  refine ⟨⟨rfl, iff_of_true rfl rfl, trivial, [⟨"", some 0⟩], rfl, rfl, ?_⟩, .empty, Nat.zero_le _⟩
  simp

/-- Writing a program settles whether it breaks no rule and all of its constants have room. -/
theorem generateScript_settles (program : Statement) (placed : program.Placed)
    (tokens : List Token) :
    Settles (program.Lawful .script)
      ((program.use .script).count ≤ Chunk.maxConstants ∧ program.FunctionsFit)
      (fun _ _ => True) (program.generateScript (.ofTokens tokens)) := by
  have admits : (Compiler.ofTokens tokens).draft.Admits program := by
    intro _ scope found
    cases found
  have settles := program.ruled placed (script_described tokens) rfl admits
  rw [Settled, Use.none_add] at settles
  rw [generateScript]
  apply settles.thenOk
  intro _ written _ lays
  rcases emitReturn_adds (.refl lays.holds) with ⟨returned, ran, _⟩
  exact ⟨_, _, bind_of_ok ran, trivial⟩

end Statement

end StackScript
