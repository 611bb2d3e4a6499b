import StackScript.Proofs.Drafting
import StackScript.Proofs.Generation
import StackScript.Proofs.Likeness

/-!
# Functions that are written side by side

Two compilers do the same, and the functions that they write differ in the names of variables, in
lines, or not at all. A `Resemblance` says in what they may differ. All actions of the compiler that
do not read are `Uniform`: they keep the resemblance, or fail in both compilers at the token that
was read last.
-/

namespace StackScript

variable {left right : Compiler}

def Local.renamed (rename : String → String) (entry : Local) : Local :=
  { entry with name := rename entry.name }

def CompileError.Kind.renamed (rename : String → String) : CompileError.Kind → CompileError.Kind
  | redeclared name => redeclared (rename name)
  | ownInitializer name => ownInitializer (rename name)
  | other => other

/-- Whether an error says that a token is none of the language. -/
def CompileError.Kind.isUnreadable : CompileError.Kind → Bool
  | unreadable _ => true
  | _ => false

structure Draft.Parallel (rename : String → String) (left right : Draft) : Prop where
  arity_eq : right.arity = left.arity
  kind_eq : right.kind = left.kind
  locals_eq : right.locals = left.locals.map (Local.renamed rename)
  scopes_eq : right.scopes = left.scopes
  names_eq : ∀ name, right.names[rename name]? = left.names[name]?
  size_eq : right.chunk.size = left.chunk.size
  poolSize_eq : right.chunk.constants.size = left.chunk.constants.size

/-- In what functions under construction may differ, and that writing keeps it so. -/
structure Resemblance where
  rename : String → String
  injective : Function.Injective rename
  lines : Nat → Nat → Prop
  function : Function → Function → Prop
  draft : Draft → Draft → Prop
  script : draft .script .script
  begun : ∀ name, draft ((Draft.named name).openScope .function)
    ((Draft.named (rename name)).openScope .function)
  parallel : ∀ {left right : Draft}, draft left right → left.Parallel rename right
  writeOpcode : ∀ {left right : Draft} (opcode : Opcode) {line line' : Nat}, draft left right →
    lines line line' → draft { left with chunk := left.chunk.writeOpcode opcode line }
      { right with chunk := right.chunk.writeOpcode opcode line' }
  writeByte : ∀ {left right : Draft} (byte : UInt8), draft left right →
    draft { left with chunk := left.chunk.writeByte byte }
      { right with chunk := right.chunk.writeByte byte }
  patchWord : ∀ {left right : Draft} (offset word : Nat), draft left right →
    draft (left.patch offset word) (right.patch offset word)
  pool : ∀ {left right : Draft} {constant other : Constant}, draft left right →
    Datum.Like function constant other → draft (left.pool constant) (right.pool other)
  intern : ∀ {left right : Draft} {name : String} {place : UInt8}, draft left right →
    left.names[name]? = none → place.toNat = left.chunk.constants.size →
    draft ((left.pool (.string name)).remember name place)
      ((right.pool (.string (rename name))).remember (rename name) place)
  withArity : ∀ {left right : Draft} (arity : Nat), draft left right →
    draft { left with arity } { right with arity }
  withScopes : ∀ {left right : Draft} (scopes : List Scope), draft left right →
    draft { left with scopes } { right with scopes }
  withLocals : ∀ {left right : Draft} (locals : List Local), draft left right →
    draft { left with locals } { right with locals := locals.map (Local.renamed rename) }

namespace Draft.Parallel

variable {rename : String → String} {left right : Draft}

theorem depth_eq (parallel : left.Parallel rename right) : right.depth = left.depth := by
  rw [depth, depth, parallel.scopes_eq]

theorem countFrom_eq (parallel : left.Parallel rename right) (depth : Nat) :
    right.countFrom depth = left.countFrom depth := by
  rw [countFrom, countFrom, parallel.locals_eq, List.takeWhile_map, List.length_map]
  rfl

theorem declares_eq (parallel : left.Parallel rename right) (injective : Function.Injective rename)
    (name : String) : right.declares (rename name) = left.declares name := by
  rw [declares, declares, parallel.locals_eq, parallel.depth_eq, List.takeWhile_map, List.any_map]
  congr 1
  funext entry
  simp [Local.renamed, injective.eq_iff]

end Draft.Parallel

theorem Local.resolve?_renamed {rename : String → String} (injective : Function.Injective rename)
    (name : String) (locals : List Local) :
    resolve? (rename name) (locals.map (renamed rename)) =
      (resolve? name locals).map fun found => (found.1, found.2.renamed rename) := by
  induction locals with
  | nil => rfl
  | cons entry outer ih =>
    simp only [List.map_cons, resolve?, renamed, injective.eq_iff, List.length_map]
    split
    · rfl
    · exact ih

namespace Resemblance

variable {view : Resemblance} {left right : Draft}

variable (like : view.draft left right)
include like

theorem writeWord (word : Nat) :
    view.draft { left with chunk := left.chunk.writeWord word }
      { right with chunk := right.chunk.writeWord word } :=
  view.writeByte _ (view.writeByte _ like)

theorem openScope (kind : ScopeKind) : view.draft (left.openScope kind) (right.openScope kind) := by
  have parallel := view.parallel like
  rw [Draft.openScope, Draft.openScope, parallel.depth_eq, parallel.size_eq, parallel.scopes_eq]
  exact view.withScopes _ like

theorem addLocal (name : String) :
    view.draft (left.addLocal name) (right.addLocal (view.rename name)) := by
  rw [Draft.addLocal, Draft.addLocal, (view.parallel like).locals_eq]
  exact view.withLocals (⟨name, none⟩ :: left.locals) like

theorem initializeLocal : view.draft left.initializeLocal right.initializeLocal := by
  rw [Draft.initializeLocal, Draft.initializeLocal, (view.parallel like).locals_eq,
    (view.parallel like).depth_eq]
  cases left.locals with
  | nil => exact view.withLocals [] like
  | cons entry outer =>
    exact view.withLocals ({ entry with depth := some left.depth } :: outer) like

theorem dropFrom (depth : Nat) : view.draft (left.dropFrom depth) (right.dropFrom depth) := by
  rw [Draft.dropFrom, Draft.dropFrom, (view.parallel like).locals_eq, List.dropWhile_map]
  exact view.withLocals _ like

end Resemblance

namespace Compiler

/-- Whether the functions that two compilers are writing resemble each other. -/
structure Like (view : Resemblance) (left right : Compiler) : Prop where
  draft : view.draft left.draft right.draft
  enclosing : List.Forall₂ view.draft left.enclosing right.enclosing
  line : view.lines left.previous.line right.previous.line

theorem Like.parallel {view : Resemblance} {left right : Compiler} (like : left.Like view right) :
    left.draft.Parallel view.rename right.draft :=
  view.parallel like.draft

/-- Whether the compiler has moved on behind `tokens`. -/
structure Passes (compiler : Compiler) (tokens : List Token) (after : Compiler) : Prop where
  stream_eq : compiler.stream = tokens ++ after.stream
  previous_eq : after.previous = tokens.getLastD compiler.previous
  nesting_eq : after.nesting = compiler.nesting

namespace Passes

variable {compiler middle after : Compiler} {tokens others : List Token}

theorem refl (compiler : Compiler) : compiler.Passes [] compiler :=
  ⟨rfl, rfl, rfl⟩

theorem trans (first : compiler.Passes tokens middle) (second : middle.Passes others after) :
    compiler.Passes (tokens ++ others) after := by
  refine ⟨?_, ?_, second.nesting_eq.trans first.nesting_eq⟩
  · rw [first.stream_eq, second.stream_eq, List.append_assoc]
  · rw [second.previous_eq, first.previous_eq]
    cases others with
    | nil => simp
    | cons token rest => simp [List.getLastD_eq_getLast?, List.getLast?_append]

end Passes

end Compiler

namespace Compile

variable {α β γ δ : Type} {view : Resemblance} {left right : Compiler}

/--
How two runs compare that do not read: both succeed and have written functions that resemble each
other, or both fail at the token that was read last.
-/
inductive Paired (view : Resemblance) (same : α → β → Prop) (left right : Compiler) :
    EStateM.Result CompileError Compiler α → EStateM.Result CompileError Compiler β → Prop where
  | ok {value : α} {other : β} {after after' : Compiler} (related : same value other)
      (stays : left.Passes [] after) (stays' : right.Passes [] after')
      (like : after.Like view after') :
      Paired view same left right (.ok value after) (.ok other after')
  | error {kind : CompileError.Kind} {after after' : Compiler}
      (regular : kind.isUnreadable = false) (stays : left.Passes [] after)
      (stays' : right.Passes [] after') :
      Paired view same left right (.error (.atToken left.previous kind) after)
        (.error (.atToken right.previous (kind.renamed view.rename)) after')

theorem Paired.bind {same : α → β → Prop} {same' : γ → δ → Prop} {action : Compile α}
    {other : Compile β} {next : α → Compile γ} {onward : β → Compile δ}
    (first : Paired view same left right (action left) (other right))
    (second : ∀ value value' after after', same value value' → after.Like view after' →
      Paired view same' after after' (next value after) (onward value' after')) :
    Paired view same' left right ((action >>= next) left) ((other >>= onward) right) := by
  rw [bind_apply, bind_apply]
  generalize action left = result at first
  generalize other right = result' at first
  cases first with
  | ok related stays stays' like =>
    have rest := second _ _ _ _ related like
    simp only
    generalize next _ _ = result at rest
    generalize onward _ _ = result' at rest
    cases rest with
    | ok related passes passes' like =>
      exact .ok related (stays.trans passes) (stays'.trans passes') like
    | error regular passes passes' =>
      rw [stays.previous_eq, stays'.previous_eq]
      exact .error regular (stays.trans passes) (stays'.trans passes')
  | error regular stays stays' => exact .error regular stays stays'

/-- Whether an action does not read and does the same to functions that resemble each other. -/
def Uniform (view : Resemblance) (action : Compile α) : Prop :=
  ∀ left right : Compiler, left.Like view right →
    Paired view Eq left right (action left) (action right)

namespace Uniform

variable {compiler : Compiler} {constant other : Constant} {kind : CompileError.Kind}

theorem bind {action : Compile α} {next : α → Compile β} (first : Uniform view action)
    (second : ∀ value, Uniform view (next value)) : Uniform view (action >>= next) := by
  intro left right like
  apply Paired.bind (first left right like)
  rintro value _ after after' rfl like'
  exact second value after after' like'

theorem pure (value : α) : Uniform view (pure value : Compile α) :=
  fun _ _ like => .ok rfl (.refl _) (.refl _) like

theorem fail_paired {kind' : CompileError.Kind} (renamed : kind.renamed view.rename = kind')
    (regular : kind.isUnreadable = false) (left right : Compiler) :
    Paired view Eq left right (fail kind left : EStateM.Result _ _ α) (fail kind' right) :=
  renamed ▸ .error regular (.refl _) (.refl _)

theorem fail (nameless : kind.renamed view.rename = kind) (regular : kind.isUnreadable = false) :
    Uniform view (fail kind : Compile α) :=
  fun left right _ => fail_paired nameless regular left right

theorem inspect {action : Compiler → Compile α}
    (each : ∀ left right : Compiler, left.Like view right →
      Paired view Eq left right (action left left) (action right right)) :
    Uniform view (get >>= action) :=
  each

theorem onDraft {change : Draft → Draft}
    (keeps : ∀ left right : Draft, view.draft left right →
      view.draft (change left) (change right)) :
    Uniform view (modify (·.onDraft change)) :=
  fun _ _ like => .ok rfl ⟨rfl, rfl, rfl⟩ ⟨rfl, rfl, rfl⟩
    { like with draft := keeps _ _ like.draft }

/-! ## Code -/

theorem emit (opcode : Opcode) : Uniform view (emit opcode) :=
  fun _ _ like => .ok rfl ⟨rfl, rfl, rfl⟩ ⟨rfl, rfl, rfl⟩
    { like with draft := view.writeOpcode opcode like.draft like.line }

theorem emitWith (opcode : Opcode) (operand : UInt8) : Uniform view (emitWith opcode operand) :=
  fun _ _ like => .ok rfl ⟨rfl, rfl, rfl⟩ ⟨rfl, rfl, rfl⟩
    { like with draft := view.writeByte operand (view.writeOpcode opcode like.draft like.line) }

theorem codeSize : Uniform view codeSize :=
  fun _ _ like => .ok like.parallel.size_eq.symm (.refl _) (.refl _) like

theorem emitPops (count : Nat) : Uniform view (emitPops count) := by
  induction count with
  | zero => exact pure ()
  | succ count ih => exact bind (emit .pop) fun _ => ih

theorem forM {items : List β} {action : β → Compile Unit}
    (each : ∀ item, Uniform view (action item)) : Uniform view (items.forM action) := by
  induction items with
  | nil => exact pure ()
  | cons item rest ih => exact bind (each item) fun _ => ih

theorem emitReturn : Uniform view emitReturn :=
  bind (emit .loadNil) fun _ => emit .ret

theorem emitJump (opcode : Opcode) : Uniform view (emitJump opcode) := by
  apply bind (emit opcode)
  intro _
  apply bind (onDraft fun _ _ like => view.writeWord like placeholder)
  intro _
  exact bind codeSize fun _ => pure _

theorem patchJump (offset : Nat) : Uniform view (patchJump offset) := by
  apply bind codeSize
  intro size
  split
  · exact fail rfl rfl
  · split
    · exact fail rfl rfl
    · exact onDraft fun _ _ like => view.patchWord _ _ like

theorem emitLoop (start : Nat) : Uniform view (emitLoop start) := by
  apply bind (emit .loop)
  intro _
  apply bind codeSize
  intro size
  dsimp only
  split
  · exact fail rfl rfl
  · split
    · exact fail rfl rfl
    · exact onDraft fun _ _ like => view.writeWord like _

theorem forExit (exit : Option Nat) : Uniform view (forExit exit) := by
  cases exit with
  | none => exact pure ()
  | some jump => exact bind (patchJump jump) fun _ => emit .pop

/-! ## Constants -/

theorem makeConstant_of_room (constant : Constant)
    (room : compiler.draft.chunk.constants.size < Chunk.maxConstants) :
    makeConstant constant compiler = .ok (UInt8.ofNat compiler.draft.chunk.constants.size)
      (compiler.onDraft (·.pool constant)) := by
  simp only [makeConstant, Chunk.addConstant?, if_pos room]
  rfl

theorem makeConstant_of_full (constant : Constant)
    (full : ¬compiler.draft.chunk.constants.size < Chunk.maxConstants) :
    makeConstant constant compiler = Compile.fail .tooManyConstants compiler := by
  simp only [makeConstant, Chunk.addConstant?, if_neg full]
  rfl

theorem makeConstant_paired (same : Datum.Like view.function constant other)
    (like : left.Like view right) :
    Paired view Eq left right (makeConstant constant left) (makeConstant other right) := by
  have sizeEq := like.parallel.poolSize_eq
  by_cases room : left.draft.chunk.constants.size < Chunk.maxConstants
  · rw [makeConstant_of_room _ room, makeConstant_of_room _ (sizeEq ▸ room), sizeEq]
    exact .ok rfl ⟨rfl, rfl, rfl⟩ ⟨rfl, rfl, rfl⟩ { like with draft := view.pool like.draft same }
  · rw [makeConstant_of_full _ room, makeConstant_of_full _ (sizeEq ▸ room)]
    exact fail_paired rfl rfl left right

theorem emitConstant_paired (same : Datum.Like view.function constant other)
    (like : left.Like view right) :
    Paired view Eq left right (emitConstant constant left) (emitConstant other right) := by
  apply Paired.bind (makeConstant_paired same like)
  rintro place _ after after' rfl like'
  exact emitWith .constant place after after' like'

theorem emitNumber (value : Float) : Uniform view (emitConstant (.number value)) :=
  fun _ _ like => emitConstant_paired (.number value) like

theorem emitString (text : String) : Uniform view (emitConstant (.string text)) :=
  fun _ _ like => emitConstant_paired (.string text) like

theorem nameConstant_paired (name : String) (like : left.Like view right) :
    Paired view Eq left right (nameConstant name left) (nameConstant (view.rename name) right) := by
  rw [nameConstant, nameConstant, get_bind, get_bind, like.parallel.names_eq]
  cases fresh : left.draft.names[name]? with
  | some index => exact pure index left right like
  | none =>
    have sizeEq := like.parallel.poolSize_eq
    dsimp only
    by_cases room : left.draft.chunk.constants.size < Chunk.maxConstants
    · have placeEq : (UInt8.ofNat left.draft.chunk.constants.size).toNat =
          left.draft.chunk.constants.size := by
        simp only [UInt8.toNat_ofNat', Nat.reducePow]
        exact Nat.mod_eq_of_lt room
      rw [bind_of_ok (makeConstant_of_room _ room),
        bind_of_ok (makeConstant_of_room _ (sizeEq ▸ room)), sizeEq]
      exact .ok rfl ⟨rfl, rfl, rfl⟩ ⟨rfl, rfl, rfl⟩
        { like with draft := view.intern like.draft fresh placeEq }
    · rw [bind_apply, bind_apply, makeConstant_of_full _ room,
        makeConstant_of_full _ (sizeEq ▸ room)]
      exact fail_paired rfl rfl left right

/-! ## Scopes and variables -/

theorem openScope (kind : ScopeKind) : Uniform view (openScope kind) :=
  onDraft fun _ _ like => view.openScope like kind

theorem onScopes (change : List Scope → List Scope) :
    Uniform view (modify (·.onDraft fun draft =>
      { draft with scopes := change draft.scopes })) := by
  apply onDraft
  intro left right like
  rw [(view.parallel like).scopes_eq]
  exact view.withScopes _ like

theorem closeScope : Uniform view closeScope := by
  apply inspect
  intro left right like
  rw [like.parallel.scopes_eq]
  cases left.draft.scopes with
  | nil => exact pure () left right like
  | cons scope outer =>
    apply bind (onScopes fun _ => outer) _ left right like
    intro _
    apply bind (forM patchJump)
    intro _
    apply inspect
    intro left right like
    rw [like.parallel.countFrom_eq]
    apply bind (onDraft fun _ _ both => view.dropFrom both scope.depth) _ left right like
    intro _
    apply bind (emitPops _)
    intro _ left right like
    exact .ok rfl ⟨rfl, rfl, rfl⟩ ⟨rfl, rfl, rfl⟩ { like with }

theorem leave (loop : Scope) : Uniform view (do
    Compile.emitPops ((← get).draft.countFrom (loop.depth + 1))
    let jump ← Compile.emitJump .jump
    modify (·.onDraft fun draft => { draft with scopes := Scope.addBreak jump draft.scopes })) := by
  apply inspect
  intro left right like
  rw [like.parallel.countFrom_eq]
  exact bind (emitPops _) (fun _ => bind (emitJump _) fun jump => onScopes (Scope.addBreak jump))
    left right like

theorem again (loop : Scope) : Uniform view (do
    Compile.emitPops ((← get).draft.countFrom (loop.depth + 1))
    Compile.emitLoop loop.loopStart) := by
  apply inspect
  intro left right like
  rw [like.parallel.countFrom_eq]
  exact bind (emitPops _) (fun _ => emitLoop _) left right like

theorem declareLocalAs_paired (name : String) (like : left.Like view right) :
    Paired view Eq left right (declareLocalAs name left)
      (declareLocalAs (view.rename name) right) := by
  rw [declareLocalAs, declareLocalAs, get_bind, get_bind,
    like.parallel.declares_eq view.injective name, like.parallel.locals_eq, List.length_map]
  split
  · exact fail_paired rfl rfl left right
  · split
    · exact fail_paired rfl rfl left right
    · exact .ok rfl ⟨rfl, rfl, rfl⟩ ⟨rfl, rfl, rfl⟩
        { like with draft := view.addLocal like.draft name }

theorem declareAs_paired (name : String) (like : left.Like view right) :
    Paired view Eq left right (declareAs name left) (declareAs (view.rename name) right) := by
  rw [declareAs, declareAs, get_bind, get_bind, like.parallel.depth_eq]
  split
  · apply Paired.bind (declareLocalAs_paired name like)
    rintro _ _ after after' _ like'
    exact pure _ after after' like'
  · apply Paired.bind (nameConstant_paired name like)
    rintro place _ after after' rfl like'
    exact pure _ after after' like'

theorem makeVisible (binding : Binding) : Uniform view (makeVisible binding) := by
  cases binding with
  | slot => exact onDraft fun _ _ like => view.initializeLocal like
  | global index => exact pure ()

theorem define (binding : Binding) : Uniform view (define binding) := by
  cases binding with
  | slot => exact makeVisible .slot
  | global index => exact emitWith .defineGlobal index

theorem resolve_paired (name : String) (like : left.Like view right) :
    Paired view Eq left right (resolve name left) (resolve (view.rename name) right) := by
  rw [resolve, resolve, get_bind, get_bind, like.parallel.locals_eq,
    Local.resolve?_renamed view.injective]
  rcases Local.resolve? name left.draft.locals with _ | ⟨slot, entry, _ | depth⟩
  · apply Paired.bind (nameConstant_paired name like)
    rintro place _ after after' rfl like'
    exact pure _ after after' like'
  · exact fail_paired rfl rfl left right
  · exact pure _ left right like

theorem emitGet (reference : Reference) : Uniform view reference.emitGet := by
  cases reference with
  | slot number => exact emitWith .getLocal number
  | global index => exact emitWith .getGlobal index

theorem emitSet (reference : Reference) : Uniform view reference.emitSet := by
  cases reference with
  | slot number => exact emitWith .setLocal number
  | global index => exact emitWith .setGlobal index

/-! ## Functions -/

theorem addParameter :
    Uniform view (modify (·.onDraft fun draft => { draft with arity := draft.arity + 1 })) := by
  apply onDraft
  intro left right like
  rw [(view.parallel like).arity_eq]
  exact view.withArity _ like

theorem beginFunctionAs_paired (name : String) (like : left.Like view right) :
    Paired view Eq left right (beginFunctionAs name left)
      (beginFunctionAs (view.rename name) right) :=
  .ok rfl ⟨rfl, rfl, rfl⟩ ⟨rfl, rfl, rfl⟩
    { like with draft := view.begun name, enclosing := .cons like.draft like.enclosing }

theorem endFunction_paired (like : left.Like view right)
    (finished : view.function left.draft.function right.draft.function) :
    Paired view view.function left right (endFunction left) (endFunction right) := by
  refine .ok finished ⟨rfl, rfl, rfl⟩ ⟨rfl, rfl, rfl⟩ ?_
  have enclosing := like.enclosing
  generalize left.enclosing = outside at enclosing ⊢
  generalize right.enclosing = outside' at enclosing ⊢
  cases enclosing with
  | nil => exact ⟨view.script, .nil, like.line⟩
  | cons outer others => exact ⟨outer, others, like.line⟩

end Uniform

theorem declare_eq (expectation : Expectation) :
    declare expectation = (do
      expect .identifier expectation
      declareAs (← lastLexeme)) := by
  rw [declare]
  congr 1
  funext _ compiler
  change (if 0 < compiler.draft.depth then _ else _ : Compile Binding) compiler =
    (if 0 < compiler.draft.depth then _ else _ : Compile Binding) compiler
  split <;> rfl

end Compile

/-! ## Functions that differ in their lines, or not at all -/

namespace Resemblance

/-- Functions that do not differ. -/
def same : Resemblance where
  rename := id
  injective := Function.injective_id
  lines := Eq
  function := Eq
  draft := Eq
  script := rfl
  begun _ := rfl
  parallel := by
    rintro draft _ rfl
    exact ⟨rfl, rfl, (List.map_id _).symm, rfl, fun _ => rfl, rfl, rfl⟩
  writeOpcode := by
    rintro _ _ _ _ _ rfl rfl
    rfl
  writeByte := by
    rintro _ _ _ rfl
    rfl
  patchWord := by
    rintro _ _ _ _ rfl
    rfl
  pool := by
    rintro _ _ _ _ rfl (_ | _ | _ | _ | rfl) <;> rfl
  intern := by
    rintro _ _ _ _ rfl _ _
    rfl
  withArity := by
    rintro _ _ _ rfl
    rfl
  withScopes := by
    rintro _ _ _ rfl
    rfl
  withLocals := by
    rintro _ _ locals rfl
    rw [show locals.map (Local.renamed id) = locals from List.map_id locals]

/-- Functions that differ in lines. -/
def alike : Resemblance where
  rename := id
  injective := Function.injective_id
  lines _ _ := True
  function := Function.Alike
  draft := Draft.Alike
  script := .refl _
  begun _ := .refl _
  parallel both := ⟨both.arity_eq.symm, both.kind_eq.symm,
    both.locals_eq.symm.trans (List.map_id _).symm, both.scopes_eq.symm,
    fun _ => both.names_eq ▸ rfl, both.size_eq.symm, both.constants_size_eq.symm⟩
  writeOpcode _ _ _ both _ := { both with
    code_eq := by simp only [Chunk.writeOpcode, both.code_eq]
    starts_eq := by simp only [Chunk.writeOpcode, both.code_eq, both.starts_eq] }
  writeByte _ both := { both with code_eq := by simp only [Chunk.writeByte, both.code_eq] }
  patchWord _ _ both := { both with
    code_eq := by simp only [Draft.patch, Chunk.patchWord, both.code_eq] }
  pool both same := { both with
    held := by
      simp only [Draft.pool, Array.toList_push]
      exact List.rel_append both.held (.cons same .nil) }
  intern both _ _ := { both with
    names_eq := by simp only [Draft.remember, Draft.pool, both.names_eq, id_eq]
    held := by
      simp only [Draft.remember, Draft.pool, Array.toList_push]
      exact List.rel_append both.held (.cons (.string _) .nil) }
  withArity _ both := { both with arity_eq := rfl }
  withScopes _ both := { both with scopes_eq := rfl }
  withLocals locals both := { both with locals_eq := (List.map_id locals).symm }

end Resemblance

theorem CompileError.Kind.renamed_id (kind : CompileError.Kind) : kind.renamed id = kind := by
  cases kind <;> rfl

theorem Compiler.Like.refl (compiler : Compiler) : compiler.Like .same compiler :=
  ⟨rfl, List.forall₂_same.mpr fun _ _ => rfl, rfl⟩

theorem Compiler.Alike.like (alike : left.Alike right) : left.Like .alike right :=
  ⟨alike.draft, alike.enclosing, trivial⟩

/-- Programs that are ended side by side have functions that are alike. -/
theorem Compile.finish_paired (like : left.Like .alike right) :
    Paired .alike Function.Alike left right (finish left) (finish right) := by
  apply Paired.bind (Uniform.emitReturn left right like)
  intro _ _ after after' _ likeAfter
  exact .ok likeAfter.draft.function ⟨rfl, rfl, rfl⟩ ⟨rfl, rfl, rfl⟩ { likeAfter with }

end StackScript
