import StackScript.Compiler.Program

/-!
# Actions of the compiler that succeed

An action that succeeds is taken apart into the actions it is made of. `Compiler.Reads` says which
tokens it has read.
-/

namespace StackScript

namespace Compile

variable {α β : Type} {compiler compiler' : Compiler} {result : α} {action : Compile α}
  {kind : CompileError.Kind} {next : α → Compile β}

theorem bind_eq_ok {result : β} :
    (action >>= next) compiler = .ok result compiler' ↔
      ∃ middle reached, action compiler = .ok middle reached ∧
        next middle reached = .ok result compiler' := by
  change EStateM.bind action next compiler = .ok result compiler' ↔ _
  unfold EStateM.bind
  cases ran : action compiler with
  | ok middle reached =>
    constructor
    · intro finished
      exact ⟨middle, reached, rfl, finished⟩
    · rintro ⟨_, _, same, finished⟩
      cases same
      exact finished
  | error error reached => simp

theorem bind_apply (action : Compile α) (next : α → Compile β) (compiler : Compiler) :
    (action >>= next) compiler =
      match action compiler with
      | .ok value after => next value after
      | .error error after => .error error after := by
  change EStateM.bind action next compiler = _
  rw [EStateM.bind]
  cases action compiler <;> rfl

theorem bind_of_ok {after : Compiler} {value : α} (ran : action compiler = .ok value after) :
    (action >>= next) compiler = next value after := by
  rw [bind_apply, ran]

theorem get_bind (next : Compiler → Compile α) (compiler : Compiler) :
    (get >>= next) compiler = next compiler compiler :=
  rfl

theorem exists_chosen (ran : action compiler = .ok result compiler') :
    ∃ chosen, action = chosen ∧ chosen compiler = .ok result compiler' :=
  ⟨action, rfl, ran⟩

theorem pure_eq_ok {value : α} :
    (pure value : Compile α) compiler = .ok result compiler' ↔
      value = result ∧ compiler = compiler' := by
  change EStateM.Result.ok value compiler = .ok result compiler' ↔ _
  simp

theorem get_eq_ok {result : Compiler} :
    (get : Compile Compiler) compiler = .ok result compiler' ↔
      compiler = result ∧ compiler = compiler' := by
  change EStateM.Result.ok compiler compiler = .ok result compiler' ↔ _
  simp

theorem modify_eq_ok {change : Compiler → Compiler} {result : Unit} :
    (modify change : Compile Unit) compiler = .ok result compiler' ↔
      change compiler = compiler' := by
  change EStateM.Result.ok () (change compiler) = .ok result compiler' ↔ _
  simp

theorem fail_ne_ok : ¬(fail kind : Compile α) compiler = .ok result compiler' := by
  simp [fail]

theorem failAhead_ne_ok : ¬(failAhead kind : Compile α) compiler = .ok result compiler' := by
  simp [failAhead]

theorem lookahead_eq_ok {kind : Token.Kind} :
    lookahead compiler = .ok kind compiler' ↔
      compiler.current.kind = kind ∧ compiler = compiler' := by
  simp [lookahead]

theorem lastLexeme_eq_ok {lexeme : String} :
    lastLexeme compiler = .ok lexeme compiler' ↔
      compiler.previous.lexeme = lexeme ∧ compiler = compiler' := by
  simp [lastLexeme]

theorem codeSize_eq_ok {size : Nat} :
    codeSize compiler = .ok size compiler' ↔
      compiler.draft.chunk.size = size ∧ compiler = compiler' := by
  simp [codeSize]

theorem nested_eq_ok {body : Compile Unit} {result : Unit} :
    nested body compiler = .ok result compiler' ↔
      compiler.nesting < maxNesting ∧ ∃ after,
        body { compiler with nesting := compiler.nesting + 1 } = .ok () after ∧
          { after with nesting := after.nesting - 1 } = compiler' := by
  unfold nested
  by_cases shallow : compiler.nesting < maxNesting
  · cases ran : body { compiler with nesting := compiler.nesting + 1 } with
    | ok value after => simp [shallow]
    | error error after => simp [shallow]
  · simp [shallow]

end Compile

namespace Compiler

variable {compiler middle compiler' : Compiler} {tokens others : List Token}

/-- The token ahead and those behind it. -/
def stream (compiler : Compiler) : List Token :=
  compiler.current :: compiler.upcoming

/-- Whether the last token that is still to be read, and no other, is the end of the text. -/
def Ends (compiler : Compiler) : Prop :=
  ∃ front ending, compiler.stream = front ++ [ending] ∧ ending.kind = .endOfText ∧
    ∀ token ∈ front, token.kind ≠ .endOfText

/-- Whether the compiler has read `tokens`, and is in the same function as before. -/
structure Reads (compiler : Compiler) (tokens : List Token) (compiler' : Compiler) : Prop where
  stream_eq : compiler.stream = tokens ++ compiler'.stream
  enclosing_eq : compiler'.enclosing = compiler.enclosing

/-- Whether the compiler stands at the same place of the text, in the same function. -/
structure SamePlace (compiler compiler' : Compiler) : Prop where
  current_eq : compiler'.current = compiler.current
  upcoming_eq : compiler'.upcoming = compiler.upcoming
  previous_eq : compiler'.previous = compiler.previous
  enclosing_eq : compiler'.enclosing = compiler.enclosing

/-- Whether the compiler has moved on by one token and done nothing else. -/
structure Advances (compiler compiler' : Compiler) : Prop where
  reads : compiler.Reads [compiler.current] compiler'
  draft_eq : compiler'.draft = compiler.draft
  previous_eq : compiler'.previous = compiler.current

namespace Reads

theorem refl (compiler : Compiler) : compiler.Reads [] compiler :=
  ⟨rfl, rfl⟩

theorem trans (first : compiler.Reads tokens middle) (second : middle.Reads others compiler') :
    compiler.Reads (tokens ++ others) compiler' := by
  constructor
  · rw [first.stream_eq, second.stream_eq, List.append_assoc]
  · rw [second.enclosing_eq, first.enclosing_eq]

theorem ends (reads : compiler.Reads tokens compiler') (ends : compiler.Ends) : compiler'.Ends := by
  rcases ends with ⟨front, ending, streamEq, atEnd, before⟩
  rw [reads.stream_eq] at streamEq
  have lastEq : compiler'.stream.getLast? = some ending := by
    have whole := congrArg List.getLast? streamEq
    rw [List.getLast?_append] at whole
    simpa [stream, List.getLast?_cons] using whole
  rcases List.getLast?_eq_some_iff.mp lastEq with ⟨rest, restEq⟩
  rw [restEq, ← List.append_assoc] at streamEq
  have frontEq := List.append_cancel_right streamEq
  refine ⟨rest, ending, restEq, atEnd, ?_⟩
  intro token present
  exact before token (by simp [← frontEq, present])

theorem upcoming_lt (reads : compiler.Reads tokens compiler') (present : tokens ≠ []) :
    compiler'.upcoming.length < compiler.upcoming.length := by
  have total := congrArg List.length reads.stream_eq
  have positive := List.length_pos_iff.mpr present
  simp only [stream, List.length_cons, List.length_append] at total
  omega

end Reads

namespace SamePlace

theorem refl (compiler : Compiler) : compiler.SamePlace compiler :=
  ⟨rfl, rfl, rfl, rfl⟩

theorem trans (first : compiler.SamePlace middle) (second : middle.SamePlace compiler') :
    compiler.SamePlace compiler' := by
  constructor
  · rw [second.current_eq, first.current_eq]
  · rw [second.upcoming_eq, first.upcoming_eq]
  · rw [second.previous_eq, first.previous_eq]
  · rw [second.enclosing_eq, first.enclosing_eq]

theorem reads (same : compiler.SamePlace compiler') : compiler.Reads [] compiler' := by
  constructor
  · simp [stream, same.current_eq, same.upcoming_eq]
  · exact same.enclosing_eq

end SamePlace

theorem Ends.atEnd_iff (ends : compiler.Ends) :
    compiler.current.kind = .endOfText ↔ compiler.upcoming = [] := by
  rcases ends with ⟨front, ending, streamEq, atEnd, before⟩
  rcases front with _ | ⟨token, rest⟩
  · simp only [stream, List.nil_append, List.cons.injEq] at streamEq
    simp [streamEq.1, streamEq.2, atEnd]
  · simp only [stream, List.cons_append, List.cons.injEq] at streamEq
    have here := before token (by simp)
    simp [streamEq.1, streamEq.2, here]

end Compiler

namespace Compile

variable {α β : Type} {compiler compiler' : Compiler}

/-- What writing code has no effect on. -/
class Untouched (same : Compiler → Compiler → Prop) : Prop where
  refl (compiler : Compiler) : same compiler compiler
  trans {compiler middle compiler' : Compiler} :
    same compiler middle → same middle compiler' → same compiler compiler'
  write (compiler : Compiler) (change : Draft → Draft) :
    (∀ draft, (change draft).scopes = draft.scopes) → same compiler (compiler.onDraft change)

instance : Untouched Compiler.SamePlace :=
  ⟨.refl, .trans, fun _ _ _ => ⟨rfl, rfl, rfl, rfl⟩⟩

/-- An action that, where it succeeds, leaves the compiler as it was in this respect. -/
def Quiet (same : Compiler → Compiler → Prop) (action : Compile α) : Prop :=
  ∀ (compiler : Compiler) (result : α) (compiler' : Compiler),
    action compiler = .ok result compiler' → same compiler compiler'

namespace Quiet

variable {action : Compile α}

theorem samePlace {result : α} (quiet : Quiet Compiler.SamePlace action)
    (ran : action compiler = .ok result compiler') : compiler.SamePlace compiler' :=
  quiet compiler result compiler' ran

section Writing

variable {same : Compiler → Compiler → Prop}

theorem ofFail (kind : CompileError.Kind) : Quiet same (fail kind : Compile α) :=
  fun _ _ _ ran => absurd ran fail_ne_ok

theorem ofModify {change : Compiler → Compiler}
    (changed : ∀ compiler : Compiler, same compiler (change compiler)) :
    Quiet same (modify change : Compile Unit) := by
  intro compiler result compiler' ran
  rw [← modify_eq_ok.mp ran]
  exact changed compiler

variable [Untouched same]

theorem ofSame (unchanged : ∀ compiler result compiler', action compiler = .ok result compiler' →
      compiler = compiler') : Quiet same action := by
  intro compiler result compiler' ran
  rw [unchanged compiler result compiler' ran]
  exact Untouched.refl _

theorem ofPure (value : α) : Quiet same (pure value : Compile α) :=
  ofSame fun _ _ _ ran => (pure_eq_ok.mp ran).2

theorem bind {next : α → Compile β} (first : Quiet same action)
    (second : ∀ value, Quiet same (next value)) : Quiet same (action >>= next) := by
  intro compiler result compiler' ran
  rcases bind_eq_ok.mp ran with ⟨value, middle, ranFirst, ranSecond⟩
  exact Untouched.trans (first _ _ _ ranFirst) (second value _ _ _ ranSecond)

theorem ofGet : Quiet same (get : Compile Compiler) :=
  ofSame fun _ _ _ ran => (get_eq_ok.mp ran).2

theorem lastLexeme : Quiet same Compile.lastLexeme :=
  ofSame fun _ _ _ ran => (lastLexeme_eq_ok.mp ran).2

theorem onDraft {change : Draft → Draft} (kept : ∀ draft, (change draft).scopes = draft.scopes) :
    Quiet same (modify (·.onDraft change) : Compile Unit) :=
  ofModify fun _ => Untouched.write _ _ kept

theorem emit (opcode : Opcode) : Quiet same (Compile.emit opcode) := by
  intro compiler result compiler' ran
  simp only [Compile.emit, EStateM.Result.ok.injEq] at ran
  rw [← ran.2]
  exact Untouched.write _ _ fun _ => rfl

theorem emitWith (opcode : Opcode) (operand : UInt8) :
    Quiet same (Compile.emitWith opcode operand) := by
  intro compiler result compiler' ran
  simp only [Compile.emitWith, EStateM.Result.ok.injEq] at ran
  rw [← ran.2]
  exact Untouched.write _ _ fun _ => rfl

theorem codeSize : Quiet same Compile.codeSize :=
  ofSame fun _ _ _ ran => (codeSize_eq_ok.mp ran).2

theorem emitPops (count : Nat) : Quiet same (Compile.emitPops count) := by
  induction count with
  | zero => exact ofPure ()
  | succ count ih => exact bind (emit .pop) fun _ => ih

theorem forM {items : List β} {action : β → Compile Unit}
    (each : ∀ item, Quiet same (action item)) : Quiet same (items.forM action) := by
  induction items with
  | nil => exact ofPure ()
  | cons item rest ih => exact bind (each item) fun _ => ih

theorem emitReturn : Quiet same Compile.emitReturn :=
  bind (emit .loadNil) fun _ => emit .ret

theorem makeConstant (constant : Constant) : Quiet same (Compile.makeConstant constant) := by
  intro compiler result compiler' ran
  unfold Compile.makeConstant at ran
  split at ran
  · simp only [EStateM.Result.ok.injEq] at ran
    rw [← ran.2]
    exact Untouched.write _ _ fun _ => rfl
  · simp at ran

theorem emitConstant (constant : Constant) : Quiet same (Compile.emitConstant constant) :=
  bind (makeConstant constant) fun index => emitWith .constant index

theorem nameConstant (name : String) : Quiet same (Compile.nameConstant name) := by
  refine bind ofGet fun compiler => ?_
  split
  · exact ofPure _
  · exact bind (makeConstant _) fun _ => bind (onDraft fun _ => rfl) fun _ => ofPure _

theorem emitJump (opcode : Opcode) : Quiet same (Compile.emitJump opcode) :=
  bind (emit opcode) fun _ =>
    bind (onDraft fun _ => rfl) fun _ => bind codeSize fun _ => ofPure _

theorem patchJump (offset : Nat) : Quiet same (Compile.patchJump offset) := by
  refine bind codeSize fun size => ?_
  split
  · exact ofFail _
  · split
    · exact ofFail _
    · exact onDraft fun _ => rfl

theorem emitLoop (start : Nat) : Quiet same (Compile.emitLoop start) := by
  refine bind (emit .loop) fun _ => bind codeSize fun size => ?_
  dsimp only
  split
  · exact ofFail _
  · split
    · exact ofFail _
    · exact onDraft fun _ => rfl

theorem declareLocal : Quiet same Compile.declareLocal := by
  refine bind lastLexeme fun name => bind ofGet fun compiler => ?_
  dsimp only
  split
  · exact ofFail _
  · split
    · exact ofFail _
    · exact onDraft fun _ => rfl

theorem makeVisible (binding : Binding) : Quiet same (Compile.makeVisible binding) := by
  cases binding with
  | slot => exact onDraft fun _ => rfl
  | global index => exact ofPure ()

theorem define (binding : Binding) : Quiet same (Compile.define binding) := by
  cases binding with
  | slot => exact makeVisible .slot
  | global index => exact emitWith .defineGlobal index

theorem resolve (name : String) : Quiet same (Compile.resolve name) := by
  refine bind ofGet fun compiler => ?_
  split
  · exact ofFail _
  · exact ofPure _
  · exact bind (nameConstant name) fun _ => ofPure _

theorem emitGet (reference : Reference) : Quiet same reference.emitGet := by
  cases reference with
  | slot number => exact emitWith .getLocal number
  | global index => exact emitWith .getGlobal index

theorem emitSet (reference : Reference) : Quiet same reference.emitSet := by
  cases reference with
  | slot number => exact emitWith .setLocal number
  | global index => exact emitWith .setGlobal index

theorem forExit (exit : Option Nat) : Quiet same (Compile.forExit exit) := by
  cases exit with
  | none => exact ofPure ()
  | some jump => exact bind (patchJump jump) fun _ => emit .pop

end Writing

theorem openScope (kind : ScopeKind) : Quiet Compiler.SamePlace (Compile.openScope kind) :=
  ofModify fun _ => ⟨rfl, rfl, rfl, rfl⟩

theorem closeScope : Quiet Compiler.SamePlace Compile.closeScope := by
  refine bind ofGet fun compiler => ?_
  split
  · exact ofPure _
  · exact bind (ofModify fun _ => ⟨rfl, rfl, rfl, rfl⟩) fun _ => bind (forM patchJump) fun _ =>
      bind ofGet fun _ => bind (onDraft fun _ => rfl) fun _ => bind (emitPops _) fun _ =>
      ofModify fun _ => ⟨rfl, rfl, rfl, rfl⟩

theorem ofDeclare {expectation : Expectation} {binding : Binding}
    (ran : declare expectation compiler = .ok binding compiler') :
    ∃ named, expect .identifier expectation compiler = .ok () named ∧
      named.SamePlace compiler' := by
  rcases bind_eq_ok.mp ran with ⟨_, named, ranExpect, ran⟩
  refine ⟨named, ranExpect, samePlace (bind ofGet fun compiler => ?_) ran⟩
  split
  · exact bind declareLocal fun _ => ofPure _
  · exact bind lastLexeme fun name => bind (nameConstant name) fun _ => ofPure _

end Quiet

section Reading

variable {result : Unit} {kind : Token.Kind}

theorem advance_eq_ok (ran : advance compiler = .ok result compiler') :
    compiler' = compiler.shift := by
  simp only [advance] at ran
  split at ran
  · simp at ran
  · simp only [EStateM.Result.ok.injEq] at ran
    exact ran.2.symm

theorem advance_advances (ran : advance compiler = .ok result compiler') (ends : compiler.Ends)
    (more : compiler.current.kind ≠ .endOfText) : compiler.Advances compiler' := by
  rw [advance_eq_ok ran]
  unfold Compiler.shift
  split
  · next last => exact absurd (ends.atEnd_iff.mpr last) more
  · next token rest upcoming =>
    exact ⟨⟨by simp [Compiler.stream, upcoming], rfl⟩, rfl, rfl⟩

theorem expect_advances {expectation : Expectation}
    (ran : expect kind expectation compiler = .ok result compiler') (ends : compiler.Ends)
    (more : kind ≠ .endOfText) : compiler.current.kind = kind ∧ compiler.Advances compiler' := by
  simp only [expect, bind_eq_ok, lookahead_eq_ok] at ran
  rcases ran with ⟨_, _, ⟨rfl, rfl⟩, ran⟩
  split at ran
  · next same => exact ⟨same, advance_advances ran ends (same ▸ more)⟩
  · exact absurd ran failAhead_ne_ok

theorem accept_advances {accepted : Bool} (ran : accept kind compiler = .ok accepted compiler')
    (ends : compiler.Ends) (more : kind ≠ .endOfText) :
    (accepted = true ∧ compiler.current.kind = kind ∧ compiler.Advances compiler') ∨
      (accepted = false ∧ compiler.current.kind ≠ kind ∧ compiler' = compiler) := by
  simp only [accept, bind_eq_ok, lookahead_eq_ok] at ran
  rcases ran with ⟨_, _, ⟨rfl, rfl⟩, ran⟩
  split at ran
  · next same =>
    simp only [bind_eq_ok, pure_eq_ok] at ran
    rcases ran with ⟨_, _, advanced, rfl, rfl⟩
    exact Or.inl ⟨rfl, same, advance_advances advanced ends (same ▸ more)⟩
  · next other =>
    rcases pure_eq_ok.mp ran with ⟨rfl, rfl⟩
    exact Or.inr ⟨rfl, other, rfl⟩

end Reading

end Compile

end StackScript
