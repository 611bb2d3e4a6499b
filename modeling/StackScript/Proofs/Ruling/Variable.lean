import StackScript.Proofs.Ruling.Statement

/-!
# Declarations are written exactly if they are lawful

A global variable can always be declared where there is room for its name. A local needs a name
that its scope does not have yet and a slot, and its first value must not refer to it.
-/

namespace StackScript

variable {name : String}

open Compile

namespace Site.Fits

variable {site : Site} {draft : Draft}

theorem depth_pos (fits : site.Fits draft) (inside : site.isOutermost = false) :
    0 < draft.depth := by
  have some : draft.scopes ≠ [] := by
    intro none
    rw [fits.outermost_iff.mpr none] at inside
    cases inside
  exact List.length_pos_of_ne_nil some

theorem declares_iff (fits : site.Fits draft) (inside : site.isOutermost = false)
    (name : String) : draft.declares name = true ↔ name ∈ site.scope := by
  rcases fits.locals_eq with ⟨outer, localsEq, _, depths⟩
  have positive := fits.depth_pos inside
  have own : ∀ entry ∈ site.scope.map (⟨·, some draft.depth⟩ : String → Local),
      entry.isWithin draft.depth = true := by
    intro entry present
    rcases List.mem_map.mp present with ⟨_, _, rfl⟩
    simp [Local.isWithin]
  have others : outer.takeWhile (·.isWithin draft.depth) = [] := by
    cases outer with
    | nil => rfl
    | cons entry outer =>
      rcases depths entry List.mem_cons_self with ⟨depth, depthEq, below⟩
      have notWithin : ¬entry.isWithin draft.depth = true := by
        simp only [Local.isWithin, depthEq, Option.all_some, decide_eq_true_eq]
        omega
      rw [List.takeWhile_cons, if_neg notWithin]
  rw [Draft.declares, localsEq, List.takeWhile_append_of_pos own, others, List.append_nil]
  simp

theorem legal_pending_iff (fits : site.Fits draft) (name : String) (expression : Expression) :
    expression.Legal (⟨name, none⟩ :: draft.locals) ↔
      expression.Small ∧ name ∉ expression.identifiers := by
  have initialized : ∀ other, Local.Initialized (⟨name, none⟩ :: draft.locals) other ↔
      other ≠ name := by
    intro other
    rw [Local.Initialized, Local.resolve?]
    by_cases same : name = other
    · simp [same]
    · rw [if_neg same]
      refine iff_of_true ?_ (Ne.symm same)
      intro slot entry resolved
      rcases fits.isScoped.initialized entry (Local.mem_of_resolve? resolved) with
        ⟨depth, depthEq, _⟩
      simp [depthEq]
  rw [Expression.Legal, and_comm]
  apply and_congr_right
  intro _
  simp only [initialized]
  constructor
  · intro all present
    exact all name present rfl
  · rintro absent other present rfl
    exact absent present

end Site.Fits

theorem Use.access_cons {other : String} {names : List String} (differs : name ≠ other) :
    access (name :: names) other = access names other := by
  simp [access, Ne.symm differs]

theorem Expression.use_cons (names : List String) (expression : Expression)
    (absent : name ∉ expression.identifiers) :
    expression.use (name :: names) = expression.use names := by
  induction expression with
  | number | string | literal => rfl
  | reference other =>
    apply Use.access_cons
    simpa [identifiers] using absent
  | assign other value ih =>
    simp only [identifiers, List.mem_cons, not_or] at absent
    rw [Expression.use, Expression.use, Use.access_cons absent.1, ih absent.2]
  | unary operator operand ih => exact ih absent
  | binary _ left right ihLeft ihRight | and left right ihLeft ihRight
  | or left right ihLeft ihRight =>
    simp only [identifiers, List.mem_append, not_or] at absent
    rw [Expression.use, Expression.use, ihLeft absent.1, ihRight absent.2]
  | call callee arguments ihCallee ihArguments =>
    simp only [identifiers, List.mem_append, not_or] at absent
    have all : useAll (name :: names) arguments = useAll names arguments := by
      replace absent := absent.2
      induction arguments with
      | nil => rfl
      | cons first rest ih =>
        simp only [allIdentifiers, List.mem_append, not_or] at absent
        rw [useAll, useAll, ihArguments first List.mem_cons_self absent.1,
          ih (fun argument present => ihArguments argument (List.mem_cons_of_mem _ present))
            absent.2]
    rw [Expression.use, Expression.use, ihCallee absent.1, all]

namespace Compile

variable {site : Site} {writer : Compiler} {use : Use} {name : String}

theorem declareLocalAs_settles (fits : site.Fits writer.draft)
    (inside : site.isOutermost = false) (name : String) :
    Settles (site.Admits name) True (fun _ after => after = writer.onDraft (·.addLocal name))
      (declareLocalAs name writer) := by
  have declares := fits.declares_iff inside name
  have lengthEq := fits.length_eq
  change Settles _ _ _ ((if writer.draft.declares name = true then fail (.redeclared name)
    else if maxLocals ≤ writer.draft.locals.length then fail .tooManyLocals
    else modify (·.onDraft (·.addLocal name)) : Compile Unit) writer)
  rw [Site.Admits, inside, lengthEq]
  by_cases taken : writer.draft.declares name = true
  · rw [if_pos taken]
    apply Settles.ofFail
    simp [declares.mp taken]
  · rw [if_neg taken]
    by_cases full : maxLocals ≤ site.names.length
    · rw [if_pos full]
      apply Settles.ofFail
      simp [Nat.not_lt.mpr full]
    · rw [if_neg full]
      exact ⟨Or.inr ⟨fun present => taken (declares.mpr present), Nat.not_le.mp full⟩, trivial, rfl⟩

end Compile

/-- The name that gets a slot. -/
def Site.bound (site : Site) (name : String) : List String :=
  if site.isOutermost then [] else [name]

/-- Whether a variable was declared, and that many bytes were added; a local has that depth. -/
structure Compiler.Binds (writer : Compiler) (site : Site) (name : String) (depth : Option Nat)
    (binding : Binding) (bytes : Nat) (use : Use) (after : Compiler) : Prop where
  head_eq : after.draft.head = writer.draft.head
  locals_eq : after.draft.locals = (site.bound name).map (⟨·, depth⟩) ++ writer.draft.locals
  scopes_eq : after.draft.scopes = writer.draft.scopes
  size_eq : after.draft.chunk.size = writer.draft.chunk.size + bytes
  holds : after.draft.pooled.Holds use
  enclosing_eq : after.enclosing = writer.enclosing
  binding_eq : if site.isOutermost then ∃ index, binding = .global index else binding = .slot

namespace Compiler.Binds

variable {site : Site} {writer middle after : Compiler} {name : String} {depth : Option Nat}
  {binding : Binding} {bytes more : Nat} {use use' : Use}

theorem andAdds (binds : writer.Binds site name depth binding bytes use middle)
    (adds : middle.Adds more use' after) :
    writer.Binds site name depth binding (bytes + more) use' after where
  head_eq := adds.head_eq.trans binds.head_eq
  locals_eq := adds.locals_eq.trans binds.locals_eq
  scopes_eq := adds.scopes_eq.trans binds.scopes_eq
  size_eq := by rw [adds.size_eq, binds.size_eq, Nat.add_assoc]
  holds := adds.holds
  enclosing_eq := adds.enclosing_eq.trans binds.enclosing_eq
  binding_eq := binds.binding_eq

theorem visible (binds : writer.Binds site name depth binding bytes use middle) :
    ∃ after, makeVisible binding middle = .ok () after ∧
      writer.Binds site name (some writer.draft.depth) binding bytes use after := by
  have localsEq := binds.locals_eq
  have bindingEq := binds.binding_eq
  cases outermost : site.isOutermost with
  | true =>
    simp only [outermost, if_true] at bindingEq
    rcases bindingEq with ⟨index, rfl⟩
    refine ⟨middle, rfl, { binds with locals_eq := ?_ }⟩
    simpa [Site.bound, outermost] using localsEq
  | false =>
    simp only [outermost, Bool.false_eq_true, if_false] at bindingEq
    subst bindingEq
    refine ⟨_, rfl, { binds with locals_eq := ?_ }⟩
    have depthEq : middle.draft.depth = writer.draft.depth := congrArg List.length binds.scopes_eq
    simp only [Site.bound, outermost] at localsEq ⊢
    simp [Compiler.onDraft, Draft.initializeLocal, localsEq, depthEq]

theorem define (binds : writer.Binds site name depth binding bytes use middle) :
    ∃ after, define binding middle = .ok () after ∧
      writer.Lays (bytes + site.definingSize) (site.bound name) (fun _ => []) use after := by
  rcases binds.visible with ⟨seen, ran, sees⟩
  have lays : writer.Lays bytes (site.bound name) (fun _ => []) use seen :=
    ⟨sees.head_eq, sees.locals_eq, ⟨[], sees.scopes_eq, fun _ => .nil⟩, sees.size_eq, sees.holds,
      sees.enclosing_eq⟩
  have bindingEq := binds.binding_eq
  rw [Site.definingSize]
  cases outermost : site.isOutermost with
  | true =>
    simp only [outermost, if_true] at bindingEq
    rcases bindingEq with ⟨index, rfl⟩
    cases ran
    exact ⟨_, emitWith_apply rfl index middle, lays.write .defineGlobal index.toNat _⟩
  | false =>
    simp only [outermost, Bool.false_eq_true, if_false] at bindingEq
    subst bindingEq
    exact ⟨seen, ran, lays⟩

end Compiler.Binds

namespace Compile

variable {site : Site} {writer : Compiler} {use : Use}

theorem declareAs_settles (described : site.Describes writer use) (name : String) :
    Settles (site.Admits name) (use + site.defining name).Fits
      (fun binding after => writer.Binds site name none binding 0 (use + site.defining name) after)
      (declareAs name writer) := by
  cases outermost : site.isOutermost with
  | true =>
    have depthZero : ¬0 < writer.draft.depth := by
      rw [Draft.depth, described.fits.outermost_iff.mp outermost]
      simp
    have named := described.holds.withName name
    have room := described.room
    rw [Use.Fits, ← described.holds.size_eq] at room
    have settles := nameConstant_settles name room
    change Settles _ _ _ ((if 0 < writer.draft.depth then _ else
      nameConstant name >>= fun index => pure (.global index) : Compile Binding) writer)
    rw [if_neg depthZero, Site.defining, if_pos outermost]
    rw [named.size_eq] at settles
    apply (settles.thenOk _).congr (iff_of_true trivial (Or.inl outermost)) Iff.rfl
    rintro index _ _ ⟨_, rfl⟩
    refine ⟨_, _, rfl, rfl, ?_, rfl, rfl, named, rfl, ?_⟩
    · simp [Site.bound, outermost, Compiler.onDraft, Draft.withPool]
    · simp [outermost]
  | false =>
    have nothing : use + site.defining name = use := by
      simp [Site.defining, outermost, Use.add_none]
    change Settles _ _ _ ((if 0 < writer.draft.depth then
      declareLocalAs name >>= fun _ => pure .slot else _ : Compile Binding) writer)
    rw [if_pos (described.fits.depth_pos outermost), nothing]
    have settles := declareLocalAs_settles described.fits outermost name
    apply (settles.thenOk _).congr Iff.rfl (iff_true_intro described.room).symm
    rintro _ _ _ rfl
    refine ⟨_, _, rfl, rfl, ?_, rfl, rfl, described.holds, rfl, ?_⟩
    · simp [Site.bound, outermost, Compiler.onDraft, Draft.addLocal]
    · simp [outermost]

theorem generateInitial_settles {names : List String}
    (namesEq : writer.draft.locals.map (·.name) = names)
    (holds : writer.draft.pooled.Holds use) (room : use.Fits) (initial : Option Expression) :
    Settles (∀ value ∈ initial, value.Legal writer.draft.locals)
      (use + Expression.useOf names initial).Fits
      (fun _ after => writer.Adds (Statement.initialSize initial)
        (use + Expression.useOf names initial) after)
      (Statement.generateInitial initial writer) := by
  cases initial with
  | none =>
    have nothing : use + Expression.useOf names none = use := use.add_none
    rcases emit_lays (show Opcode.loadNil.operandSize = 0 from rfl) (.refl holds)
      with ⟨after, ran, adds⟩
    rw [Statement.generateInitial, ran, nothing]
    exact ⟨by simp, room, adds⟩
  | some value => exact (value.adds namesEq holds room).congr (by simp) Iff.rfl

end Compile

namespace Statement

variable {site : Site} {writer : Compiler} {use : Use}

theorem settledAlone_varDeclaration (described : site.Describes writer use) (name : String)
    (initial : Option Expression) : (varDeclaration name initial).SettledAlone site writer use := by
  have rules : (varDeclaration name initial).Lawful site ↔ site.Admits name ∧
      ∀ value ∈ initial, value.Legal
        ((site.bound name).map (⟨·, none⟩) ++ writer.draft.locals) := by
    cases outermost : site.isOutermost with
    | true => simp [Lawful, Site.bound, outermost, described.fits.legal_iff]
    | false => simp [Lawful, Site.bound, outermost, described.fits.legal_pending_iff]
  -- The name of a local is in use where its first value is written, which must not mention it.
  have useEq : (varDeclaration name initial).Lawful site →
      use + (varDeclaration name initial).use site =
        use + site.defining name + Expression.useOf (site.bound name ++ site.names) initial := by
    rintro ⟨_, lawful⟩
    rw [Statement.use, ← Use.add_assoc]
    congr 1
    cases initial with
    | none => rfl
    | some value =>
      cases outermost : site.isOutermost with
      | true => simp [Site.bound, outermost]
      | false =>
        rw [Site.bound, outermost]
        exact (value.use_cons _ ((lawful value rfl).2 outermost)).symm
  have settles : Settles ((varDeclaration name initial).Lawful site)
      (use + site.defining name + Expression.useOf (site.bound name ++ site.names) initial).Fits
      (fun _ after => writer.Lays (initialSize initial + site.definingSize) (site.bound name)
        (fun _ => [])
        (use + site.defining name + Expression.useOf (site.bound name ++ site.names) initial) after)
      ((varDeclaration name initial).generate writer) := by
    rw [generate]
    apply (declareAs_settles described name).andThen rules
      ⟨fun room => ⟨room.left, room⟩, And.right⟩
    intro binding declared _ room binds
    have namesEq : declared.draft.locals.map (·.name) = site.bound name ++ site.names := by
      rw [binds.locals_eq, List.map_append, List.map_map, described.fits.names_eq]
      exact congrArg (· ++ _) (List.map_id _)
    have settles := generateInitial_settles namesEq binds.holds room initial
    rw [binds.locals_eq] at settles
    apply settles.thenOk
    intro _ valued _ adds
    rcases (binds.andAdds adds).define with ⟨after, ran, lays⟩
    rw [Nat.zero_add] at lays
    exact ⟨(), after, ran, lays⟩
  apply (settles.congrRoom fun lawful => by rw [useEq lawful]).imp
  intro _ after lawful _ lays
  exact lays.cast rfl rfl (fun _ => rfl) (useEq lawful).symm

theorem settledAlone_clause {initial : Statement} (isClause : initial.isClause = true)
    (described : site.Describes writer use) : initial.SettledAlone site writer use := by
  cases initial with
  | empty => exact settledAlone_empty described
  | expression value => exact settledAlone_expression described value
  | varDeclaration name initial => exact settledAlone_varDeclaration described name initial
  | _ => cases isClause

end Statement

end StackScript
