import StackScript.Proofs.Correspondence
import StackScript.Proofs.Joining

/-!
# The functions of a program

What a declaration is turned into depends neither on the code in front of it nor on the functions
around it. So the functions in the pool of a program are known from its tree, up to their lines.
-/

namespace StackScript

variable {program : Statement} {script : Function}

/-- The functions in a pool. -/
def Chunk.functions (chunk : Chunk Constant) : List Function :=
  chunk.constants.toList.filterMap Datum.function?

/-- Whether the compiler has added functions to the pool of the one that it is writing. -/
structure Compiler.Gains (writer : Compiler) (functions : List Function) (after : Compiler) :
    Prop where
  previous_eq : after.previous = writer.previous
  enclosing_eq : after.enclosing = writer.enclosing
  functions_eq : after.draft.chunk.functions = writer.draft.chunk.functions ++ functions

theorem Compiler.Gains.trans {writer middle after : Compiler} {functions more : List Function}
    (first : writer.Gains functions middle) (second : middle.Gains more after) :
    writer.Gains (functions ++ more) after := by
  refine ⟨second.previous_eq.trans first.previous_eq,
    second.enclosing_eq.trans first.enclosing_eq, ?_⟩
  rw [second.functions_eq, first.functions_eq, List.append_assoc]

namespace Compile

variable {α β : Type} {functions more : List Function}

/--
Whether an action, if it succeeds, always adds the same functions, and depends on nothing but the
function under construction. The line of all instructions is that of a token that was never read.
-/
def Steady (functions : List Function) (action : Compile α) : Prop :=
  ∀ ⦃writer other after : Compiler⦄ ⦃value : α⦄, writer.previous = .unread →
    other.previous = .unread → writer.draft = other.draft → action writer = .ok value after →
    writer.Gains functions after ∧
      ∃ last, action other = .ok value last ∧ last.draft = after.draft

namespace Steady

variable {action : Compile α} {next : α → Compile β}

theorem bindRan (first : Steady functions action)
    (second : ∀ (writer after : Compiler) (value : α), writer.previous = .unread →
      action writer = .ok value after → Steady more (next value)) :
    Steady (functions ++ more) (action >>= next) := by
  intro writer other after value unread unreadToo same ran
  rcases bind_eq_ok.mp ran with ⟨middle, reached, ranFirst, ranNext⟩
  rcases first unread unreadToo same ranFirst with ⟨gains, between, ranOther, sameDraft⟩
  rcases first unreadToo unreadToo rfl ranOther with ⟨gainsOther, _⟩
  rcases second writer reached middle unread ranFirst (gains.previous_eq.trans unread)
    (gainsOther.previous_eq.trans unreadToo) sameDraft.symm ranNext with
    ⟨gainsNext, last, ranLast, sameLast⟩
  exact ⟨gains.trans gainsNext, last, bind_eq_ok.mpr ⟨_, _, ranOther, ranLast⟩, sameLast⟩

theorem bind (first : Steady functions action) (second : ∀ value, Steady more (next value)) :
    Steady (functions ++ more) (action >>= next) :=
  first.bindRan fun _ _ value _ _ => second value

theorem after (first : Steady [] action) (second : ∀ value, Steady functions (next value)) :
    Steady functions (action >>= next) :=
  first.bind second

theorem andThen (first : Steady functions action) (second : ∀ value, Steady [] (next value)) :
    Steady functions (action >>= next) := by
  have both := first.bind second
  rwa [List.append_nil] at both

theorem pure (value : α) : Steady [] (pure value : Compile α) := by
  rintro writer other _ _ _ _ same ⟨⟩
  exact ⟨⟨rfl, rfl, (List.append_nil _).symm⟩, other, rfl, same.symm⟩

theorem fail (kind : CompileError.Kind) : Steady [] (fail kind : Compile α) := by
  rintro writer other after value _ _ _ ⟨⟩

theorem inspect {action : Compiler → Compile α}
    (each : ∀ compiler, Steady functions (action compiler))
    (onDraft : ∀ writer other : Compiler, writer.draft = other.draft →
      action writer = action other := by intro writer other same; rw [same]) :
    Steady functions (get >>= action) := by
  intro writer other after value unread unreadToo same ran
  rcases each writer unread unreadToo same ran with ⟨gains, last, ranOther, sameDraft⟩
  rw [onDraft writer other same] at ranOther
  exact ⟨gains, last, ranOther, sameDraft⟩

theorem ofModify {change : Compiler → Compiler}
    (gains : ∀ writer : Compiler, writer.Gains [] (change writer))
    (onDraft : ∀ writer other : Compiler, writer.draft = other.draft →
      (change writer).draft = (change other).draft) : Steady [] (modify change) := by
  rintro writer other _ _ _ _ same ⟨⟩
  exact ⟨gains writer, _, rfl, (onDraft writer other same).symm⟩

theorem onDraft {change : Draft → Draft}
    (keeps : ∀ draft, (change draft).chunk.constants = draft.chunk.constants) :
    Steady [] (modify (·.onDraft change)) := by
  apply ofModify
  · intro writer
    refine ⟨rfl, rfl, ?_⟩
    rw [List.append_nil]
    exact congrArg (fun constants => constants.toList.filterMap Datum.function?)
      (keeps writer.draft)
  · intro writer other same
    exact congrArg change same

theorem codeSize : Steady [] codeSize := by
  rintro writer other _ _ _ _ same ⟨⟩
  exact ⟨⟨rfl, rfl, (List.append_nil _).symm⟩, other, by rw [same]; rfl, same.symm⟩

theorem emit (opcode : Opcode) : Steady [] (emit opcode) := by
  rintro writer other _ _ unread unreadToo same ⟨⟩
  refine ⟨⟨rfl, rfl, (List.append_nil _).symm⟩, _, rfl, ?_⟩
  simp only [Compiler.onChunk, Compiler.onDraft, same, unread, unreadToo]

theorem emitWith (opcode : Opcode) (operand : UInt8) : Steady [] (emitWith opcode operand) := by
  rintro writer other _ _ unread unreadToo same ⟨⟩
  refine ⟨⟨rfl, rfl, (List.append_nil _).symm⟩, _, rfl, ?_⟩
  simp only [Compiler.onChunk, Compiler.onDraft, same, unread, unreadToo]

theorem emitPops (count : Nat) : Steady [] (emitPops count) := by
  induction count with
  | zero => exact pure ()
  | succ count ih => exact (emit .pop).after fun _ => ih

theorem forM {items : List β} {action : β → Compile Unit} (each : ∀ item, Steady [] (action item)) :
    Steady [] (items.forM action) := by
  induction items with
  | nil => exact pure ()
  | cons item items ih =>
    exact (each item).after fun _ => ih

theorem emitReturn : Steady [] emitReturn :=
  (emit .loadNil).after fun _ => emit .ret

theorem makeConstant (constant : Constant) :
    Steady constant.function?.toList (makeConstant constant) := by
  intro writer other after value _ _ same ran
  rw [Compile.makeConstant, Chunk.addConstant?] at ran
  split at ran
  · next added =>
    split at added
    · next room =>
      cases added
      cases ran
      refine ⟨⟨rfl, rfl, ?_⟩, other.onChunk fun _ => { writer.draft.chunk with
        constants := writer.draft.chunk.constants.push constant }, ?_, ?_⟩
      · simp only [Chunk.functions, Compiler.onChunk, Compiler.onDraft, Array.toList_push,
          List.filterMap_append]
        cases constant <;> rfl
      · rw [Compile.makeConstant, Chunk.addConstant?, ← same, if_pos room]
      · simp only [Compiler.onChunk, Compiler.onDraft, same]
    · cases added
  · cases ran

theorem emitConstant (constant : Constant) :
    Steady constant.function?.toList (emitConstant constant) :=
  (makeConstant constant).andThen fun index => emitWith .constant index

theorem nameConstant (name : String) : Steady [] (nameConstant name) := by
  refine inspect fun compiler => ?_
  split
  · exact pure _
  · apply (makeConstant (.string name)).bind
    intro index
    exact after (onDraft fun _ => rfl) fun _ => pure index

theorem emitJump (opcode : Opcode) : Steady [] (emitJump opcode) :=
  (emit opcode).after fun _ => after (onDraft fun _ => rfl) fun _ => codeSize.after fun _ => pure _

theorem patchJump (offset : Nat) : Steady [] (patchJump offset) := by
  apply codeSize.after
  intro size
  split
  · exact fail _
  · split
    · exact fail _
    · exact onDraft fun _ => rfl

theorem emitLoop (start : Nat) : Steady [] (emitLoop start) := by
  apply (emit .loop).after
  intro _
  apply codeSize.after
  intro size
  dsimp only
  split
  · exact fail _
  · split
    · exact fail _
    · exact onDraft fun _ => rfl

theorem openScope (kind : ScopeKind) : Steady [] (openScope kind) :=
  onDraft fun _ => rfl

theorem closeScope : Steady [] closeScope := by
  refine inspect fun compiler => ?_
  split
  · exact pure ()
  · next scope outer _ =>
    refine after (onDraft fun _ => rfl) ?_
    intro _
    apply (forM fun offset => patchJump offset).after
    intro _
    refine inspect fun reached => ?_
    refine after (onDraft fun _ => rfl) ?_
    intro _
    apply (emitPops _).after
    intro _
    apply ofModify
    · intro writer
      exact ⟨rfl, rfl, (List.append_nil _).symm⟩
    · exact fun _ _ same => same

theorem makeVisible (binding : Binding) : Steady [] (makeVisible binding) := by
  cases binding with
  | slot => exact onDraft fun _ => rfl
  | global => exact pure ()

theorem define (binding : Binding) : Steady [] (define binding) := by
  cases binding with
  | slot => exact makeVisible .slot
  | global index => exact emitWith .defineGlobal index

theorem resolve (name : String) : Steady [] (resolve name) := by
  refine inspect fun compiler => ?_
  split
  · exact fail _
  · exact pure _
  · exact (nameConstant name).after fun _ => pure _

theorem emitGet (reference : Reference) : Steady [] reference.emitGet := by
  cases reference with
  | slot number => exact emitWith .getLocal number
  | global index => exact emitWith .getGlobal index

theorem emitSet (reference : Reference) : Steady [] reference.emitSet := by
  cases reference with
  | slot number => exact emitWith .setLocal number
  | global index => exact emitWith .setGlobal index

theorem forExit (exit : Option Nat) : Steady [] (forExit exit) := by
  cases exit with
  | none => exact pure ()
  | some jump => exact (patchJump jump).after fun _ => emit .pop

theorem declareLocalAs (name : String) : Steady [] (declareLocalAs name) := by
  refine inspect fun compiler => ?_
  dsimp only
  split
  · exact fail _
  · split
    · exact fail _
    · exact onDraft fun _ => rfl

theorem declareAs (name : String) : Steady [] (declareAs name) := by
  refine inspect fun compiler => ?_
  split
  · exact (declareLocalAs name).after fun _ => pure _
  · exact (nameConstant name).after fun _ => pure _

theorem parameterAs (name : String) : Steady [] (parameterAs name) := by
  refine inspect fun compiler => ?_
  split
  · exact fail _
  · exact after (onDraft fun _ => rfl) fun _ =>
      (declareAs name).after fun binding => define binding

end Steady

end Compile

/-! ## Trees -/

namespace Expression

open Compile

theorem generateAll_steady {arguments : List Expression}
    (each : ∀ argument ∈ arguments, Steady [] argument.generate) (count : Nat) :
    Steady [] (generateAll arguments count) := by
  induction arguments generalizing count with
  | nil => exact .pure ()
  | cons first rest ih =>
    apply (each first (by simp)).after
    intro _
    split
    · exact .fail _
    · exact ih (fun argument present => each argument (by simp [present])) _

theorem steady (expression : Expression) : Steady [] expression.generate := by
  induction expression with
  | number value => exact .emitConstant (.number value)
  | string text => exact .emitConstant (.string text)
  | literal value => exact .emit _
  | reference name => exact (Steady.resolve name).after fun reference => .emitGet reference
  | assign name value ih =>
    exact (Steady.resolve name).after fun reference => ih.after fun _ => .emitSet reference
  | unary operator operand ih => exact ih.after fun _ => .emit _
  | binary operator left right ihLeft ihRight =>
    exact ihLeft.after fun _ => ihRight.after fun _ => .forM fun opcode => .emit opcode
  | and left right ihLeft ihRight =>
    exact ihLeft.after fun _ => (Steady.emitJump _).after fun _ => (Steady.emit _).after fun _ =>
      ihRight.after fun _ => .patchJump _
  | or left right ihLeft ihRight =>
    exact ihLeft.after fun _ => (Steady.emitJump _).after fun _ =>
      (Steady.emitJump _).after fun _ => (Steady.patchJump _).after fun _ =>
      (Steady.emit _).after fun _ => ihRight.after fun _ => .patchJump _
  | call callee arguments ihCallee ihArguments =>
    exact ihCallee.after fun _ => (generateAll_steady ihArguments 0).after fun _ =>
      .emitWith _ _

end Expression

namespace Compile

variable {α β : Type} {functions more : List Function} {name : String} {parameters : List String}
  {body : Statement} {function : Function} {writer : Compiler}

def writeBody (parameters : List String) (body : Statement) : Compile Unit := do
  parameters.forM parameterAs
  body.generate
  emitReturn

theorem writeBody_steady (steady : Steady functions body.generate) (parameters : List String) :
    Steady functions (writeBody parameters body) :=
  (Steady.forM fun name => Steady.parameterAs name).after fun _ =>
    steady.andThen fun _ => Steady.emitReturn

theorem writeFunction_eq_ok {after : Compiler} :
    writeFunction name parameters body writer = .ok function after ↔
      ∃ reached, writeBody parameters body (writer.entering name) = .ok () reached ∧
        endFunction reached = .ok function after := by
  have parts : writeFunction name parameters body = (do
      beginFunctionAs name
      writeBody parameters body
      endFunction) := by
    simp [writeFunction, writeBody]
  have begun : beginFunctionAs name writer = .ok () (writer.entering name) := rfl
  rw [parts, bind_of_ok begun, bind_eq_ok]
  constructor
  · rintro ⟨⟨⟩, reached, ran, ended⟩
    exact ⟨reached, ran, ended⟩
  · rintro ⟨reached, ran, ended⟩
    exact ⟨(), reached, ran, ended⟩

theorem endFunction_eq_ok {reached after : Compiler} {draft : Draft} {enclosing : List Draft}
    (inside : reached.enclosing = draft :: enclosing)
    (ended : endFunction reached = .ok function after) :
    function = reached.draft.function ∧ after.previous = reached.previous ∧
      after.draft = draft ∧ after.enclosing = enclosing := by
  rw [endFunction, inside] at ended
  cases ended
  exact ⟨rfl, rfl, rfl, rfl⟩

theorem writeFunction_anywhere (steady : Steady functions body.generate) {other after : Compiler}
    (unread : writer.previous = .unread) (unreadToo : other.previous = .unread)
    (ran : writeFunction name parameters body writer = .ok function after) :
    after.previous = writer.previous ∧ after.enclosing = writer.enclosing ∧
      after.draft = writer.draft ∧
      ∃ last, writeFunction name parameters body other = .ok function last ∧
        last.draft = other.draft := by
  have entered : (writer.entering name).previous = .unread := unread
  have enteredToo : (other.entering name).previous = .unread := unreadToo
  rcases writeFunction_eq_ok.mp ran with ⟨reached, ranInside, ended⟩
  rcases writeBody_steady steady parameters entered enteredToo rfl ranInside with
    ⟨gains, reachedToo, ranToo, sameDraft⟩
  rcases writeBody_steady steady parameters enteredToo enteredToo rfl ranToo with ⟨gainsToo, _⟩
  rcases endFunction_eq_ok gains.enclosing_eq ended with
    ⟨functionEq, previousEq, draftEq, enclosingEq⟩
  refine ⟨previousEq.trans gains.previous_eq, enclosingEq, draftEq, ?_⟩
  have endedToo : ∃ last, endFunction reachedToo = .ok reachedToo.draft.function last := ⟨_, rfl⟩
  rcases endedToo with ⟨last, endedToo⟩
  refine ⟨last, ?_, (endFunction_eq_ok gainsToo.enclosing_eq endedToo).2.2.1⟩
  rw [writeFunction_eq_ok, functionEq, ← sameDraft]
  exact ⟨reachedToo, ranToo, endedToo⟩

theorem writeFunction_steady (steady : Steady functions body.generate) :
    Steady [] (writeFunction name parameters body) := by
  intro writer other after function unread unreadToo same ran
  rcases writeFunction_anywhere steady unread unreadToo ran with
    ⟨previousEq, enclosingEq, draftEq, last, ranToo, lastEq⟩
  refine ⟨⟨previousEq, enclosingEq, ?_⟩, last, ranToo, ?_⟩
  · rw [draftEq, List.append_nil]
  · rw [lastEq, draftEq, same]

theorem writeFunction_known (steady : Steady functions body.generate) (name : String)
    (parameters : List String) :
    ∃ function, ∀ (writer after : Compiler) (value : Function), writer.previous = .unread →
      writeFunction name parameters body writer = .ok value after → value = function := by
  by_cases written : ∃ (writer after : Compiler) (function : Function),
      writer.previous = .unread ∧ writeFunction name parameters body writer = .ok function after
  · rcases written with ⟨writer, after, function, unread, ran⟩
    refine ⟨function, ?_⟩
    intro other last value unreadToo ranToo
    rcases writeFunction_anywhere steady unreadToo unread ranToo with ⟨_, _, _, _, ranAgain, _⟩
    rw [ran] at ranAgain
    cases ranAgain
    rfl
  · refine ⟨Draft.script.function, ?_⟩
    intro writer after value unread ran
    exact absurd ⟨writer, after, value, unread, ran⟩ written

theorem funDeclaration_steady (steady : Steady functions body.generate) (name : String)
    (parameters : List String) :
    ∃ function, Steady [function] (Statement.funDeclaration name parameters body).generate := by
  rcases writeFunction_known steady name parameters with ⟨function, known⟩
  refine ⟨function, ?_⟩
  rw [generate_funDeclaration]
  apply (Steady.declareAs name).after
  intro binding
  apply (Steady.makeVisible binding).after
  intro _
  refine (writeFunction_steady steady).bindRan fun writer after written unread ran => ?_
  rw [known writer after written unread ran]
  exact (Steady.emitConstant (.function function)).andThen fun _ => .define binding

end Compile

namespace Statement

open Compile

theorem generateInitial_steady (initial : Option Expression) :
    Steady [] (generateInitial initial) := by
  cases initial with
  | none => exact .emit _
  | some value => exact value.steady

theorem generateCondition_steady (condition : Option Expression) :
    Steady [] (generateCondition condition) := by
  cases condition with
  | none => exact .pure none
  | some condition =>
    exact condition.steady.after fun _ => (Steady.emitJump _).after fun _ =>
      (Steady.emit _).after fun _ => .pure _

theorem generateIncrement_steady (start : Nat) (increment : Option Expression) :
    Steady [] (generateIncrement start increment) := by
  cases increment with
  | none => exact .pure start
  | some increment =>
    exact (Steady.emitJump _).after fun _ => Steady.codeSize.after fun _ =>
      increment.steady.after fun _ => (Steady.emit _).after fun _ =>
      (Steady.emitLoop _).after fun _ => (Steady.patchJump _).after fun _ => .pure _

theorem generateResult_steady (value : Option Expression) : Steady [] (generateResult value) := by
  cases value with
  | none => exact .emitReturn
  | some value => exact value.steady.after fun _ => .emit _

theorem exists_steady (statement : Statement) :
    ∃ functions, functions.length = statement.functionCount ∧
      Steady functions statement.generate := by
  induction statement with
  | empty => exact ⟨[], rfl, .pure ()⟩
  | sequence first rest ihFirst ihRest =>
    rcases ihFirst with ⟨front, lengthFront, steadyFront⟩
    rcases ihRest with ⟨back, lengthBack, steadyBack⟩
    refine ⟨front ++ back, ?_, steadyFront.bind fun _ => steadyBack⟩
    rw [List.length_append, lengthFront, lengthBack, functionCount]
  | expression value | print value =>
    exact ⟨[], rfl, value.steady.after fun _ => .emit _⟩
  | varDeclaration name initial =>
    exact ⟨[], rfl, (Steady.declareAs name).after fun binding =>
      (generateInitial_steady initial).after fun _ => .define binding⟩
  | funDeclaration name parameters body ih =>
    rcases ih with ⟨functions, _, steady⟩
    rcases funDeclaration_steady steady name parameters with ⟨function, steadyAll⟩
    exact ⟨[function], rfl, steadyAll⟩
  | block body ih =>
    rcases ih with ⟨functions, lengthEq, steady⟩
    exact ⟨functions, lengthEq, (Steady.openScope _).after fun _ =>
      steady.andThen fun _ => .closeScope⟩
  | conditional condition met unmet ihMet ihUnmet =>
    rcases ihMet with ⟨front, lengthFront, steadyMet⟩
    rcases ihUnmet with ⟨back, lengthBack, steadyUnmet⟩
    refine ⟨front ++ back, ?_, ?_⟩
    · rw [List.length_append, lengthFront, lengthBack, functionCount]
    · exact condition.steady.after fun _ => (Steady.emitJump _).after fun _ =>
        (Steady.emit _).after fun _ => steadyMet.bind fun _ =>
        (Steady.emitJump _).after fun _ => (Steady.patchJump _).after fun _ =>
        (Steady.emit _).after fun _ => steadyUnmet.andThen fun _ => .patchJump _
  | whileLoop condition body ih =>
    rcases ih with ⟨functions, lengthEq, steady⟩
    exact ⟨functions, lengthEq, (Steady.openScope _).after fun _ =>
      Steady.codeSize.after fun _ => condition.steady.after fun _ =>
      (Steady.emitJump _).after fun _ => (Steady.emit _).after fun _ => steady.andThen fun _ =>
      (Steady.emitLoop _).after fun _ => (Steady.patchJump _).after fun _ =>
      (Steady.emit _).after fun _ => .closeScope⟩
  | forLoop initial condition increment body ihInitial ihBody =>
    rcases ihInitial with ⟨front, lengthFront, steadyInitial⟩
    rcases ihBody with ⟨back, lengthBack, steadyBody⟩
    refine ⟨front ++ back, ?_, ?_⟩
    · rw [List.length_append, lengthFront, lengthBack, functionCount]
    · exact (Steady.openScope _).after fun _ => steadyInitial.bind fun _ =>
        Steady.codeSize.after fun _ => (generateCondition_steady condition).after fun _ =>
        (generateIncrement_steady _ increment).after fun _ =>
        Steady.after (.onDraft fun _ => rfl) fun _ => steadyBody.andThen fun _ =>
        (Steady.emitLoop _).after fun _ => (Steady.forExit _).after fun _ => .closeScope
  | breakLoop =>
    refine ⟨[], rfl, .inspect fun compiler => ?_⟩
    split
    · exact .fail _
    · refine Steady.inspect fun reached => ?_
      exact (Steady.emitPops _).after fun _ => (Steady.emitJump _).after fun _ =>
        .onDraft fun _ => rfl
  | continueLoop =>
    refine ⟨[], rfl, .inspect fun compiler => ?_⟩
    split
    · exact .fail _
    · refine Steady.inspect fun reached => ?_
      exact (Steady.emitPops _).after fun _ => .emitLoop _
  | returnValue value =>
    refine ⟨[], rfl, .inspect fun compiler => ?_⟩
    split
    · exact .fail _
    · exact generateResult_steady value

theorem generate_join (program other : Statement) :
    (program.join other).generate = (do
      program.generate
      other.generate) := by
  induction program with
  | empty => rw [join, generate, pure_bind]
  | sequence first rest _ ih => simp only [join, generate, ih, bind_assoc]
  | _ => rfl

theorem joinAll_steady {programs : List Statement} {functions : List (List Function)}
    (each : List.Forall₂ (fun program added => Steady added program.generate) programs functions) :
    Steady functions.flatten (joinAll programs).generate := by
  induction each with
  | nil => exact .pure ()
  | @cons program added programs others steady others' ih =>
    cases others' with
    | nil =>
      rw [List.flatten_cons, List.flatten_nil, List.append_nil]
      exact steady
    | cons =>
      rw [joinAll, generate_join]
      exact steady.bind fun _ => ih

end Statement

/-! ## Compiled programs -/

namespace Chunk

variable {chunk : Chunk Constant} {place : Nat} {function : Function}

theorem getElem?_functions (held : chunk.constants[place]? = some (.function function)) :
    chunk.functions[chunk.rank place]? = some function := by
  rw [functions, rank]
  rw [← Array.getElem?_toList] at held
  generalize chunk.constants.toList = constants at held
  induction constants generalizing place with
  | nil => cases held
  | cons constant constants ih =>
    cases place with
    | zero =>
      cases held
      rfl
    | succ place =>
      rw [List.getElem?_cons_succ] at held
      rw [List.take_succ_cons]
      cases constant with
      | function other =>
        rw [List.countP_cons_of_pos rfl]
        exact ih held
      | _ =>
        rw [List.countP_cons_of_neg Bool.false_ne_true]
        exact ih held

end Chunk

namespace Function.Alike

variable {left right : Function}

theorem join {common : Function} (alike : left.Alike common) (alikeToo : right.Alike common) :
    left.Alike right := by
  refine @Function.Alike.rec
    (fun left common _ => ∀ {right : Function}, right.Alike common → left.Alike right)
    (fun left common _ => ∀ {right : List Constant}, List.Forall₂ Constant.Alike right common →
      List.Forall₂ Constant.Alike left right)
    (fun left common _ => ∀ {right : Constant}, Constant.Alike right common →
      Constant.Alike left right)
    ?mk ?noConstants ?constants ?nil ?bool ?number ?string ?function
    left common alike right alikeToo
  case mk =>
    intro left common nameEq arityEq codeEq startsEq _ ih right alikeToo
    cases alikeToo with
    | mk nameEqToo arityEqToo codeEqToo startsEqToo held =>
      exact .mk (nameEq.trans nameEqToo.symm) (arityEq.trans arityEqToo.symm)
        (codeEq.trans codeEqToo.symm) (startsEq.trans startsEqToo.symm) (ih held)
  case noConstants =>
    rintro _ ⟨⟩
    exact .nil
  case constants =>
    intro _ _ _ _ _ _ ihFirst ihRest _ held
    cases held with
    | cons first rest => exact .cons (ihFirst first) (ihRest rest)
  case nil =>
    rintro _ ⟨⟩
    exact .nil
  case bool =>
    rintro value _ ⟨⟩
    exact .bool value
  case number =>
    rintro value _ ⟨⟩
    exact .number value
  case string =>
    rintro text _ ⟨⟩
    exact .string text
  case function =>
    intro _ _ _ ih _ held
    cases held with
    | function alikeToo => exact .function (ih alikeToo)

theorem functions (alike : left.Alike right) :
    List.Forall₂ Function.Alike left.chunk.functions right.chunk.functions := by
  rcases alike with ⟨_, _, _, _, held⟩
  rw [Chunk.functions, Chunk.functions]
  generalize left.chunk.constants.toList = constants at held
  generalize right.chunk.constants.toList = others at held
  induction held with
  | nil => exact .nil
  | cons first _ ih =>
    cases first with
    | function alike => exact .cons alike ih
    | _ => exact ih

end Function.Alike

theorem Statement.functions_generateScript {functions : List Function} {after : Compiler}
    (steady : Compile.Steady functions program.generate)
    (ran : program.generateScript (.ofTokens []) = .ok script after) :
    script.chunk.functions = functions := by
  rcases Compile.bind_eq_ok.mp ran with ⟨_, reached, ranProgram, ranFinish⟩
  rcases Compile.bind_eq_ok.mp ranFinish with ⟨_, returned, ranReturn, ranRest⟩
  rcases steady rfl rfl rfl ranProgram with ⟨gains, _⟩
  have unread : reached.previous = .unread := gains.previous_eq
  rcases Compile.Steady.emitReturn unread unread rfl ranReturn with ⟨gainsNone, _⟩
  cases ranRest
  have total := gainsNone.functions_eq
  rw [gains.functions_eq, List.append_nil] at total
  exact total

theorem Accepted.functions_alike {text : String} {functions : List Function}
    (accepted : Accepted text program) (compiled : compile text = .ok script)
    (steady : Compile.Steady functions program.generate) :
    List.Forall₂ Function.Alike script.chunk.functions functions := by
  rcases accepted.nested with ⟨depth, _, nested⟩
  have agrees := nested.agrees
  rw [compile, compileTokens] at compiled
  generalize Compile.program (.ofTokens (tokens text)) = result at agrees compiled
  cases result with
  | error error after => cases compiled
  | ok same after =>
    cases compiled
    cases written : program.generateScript (.ofTokens []) with
    | error error last =>
      rw [written] at agrees
      exact agrees.elim
    | ok other last =>
      rw [written] at agrees
      rw [← Statement.functions_generateScript steady written]
      exact agrees.2.functions

end StackScript
