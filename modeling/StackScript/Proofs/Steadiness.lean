import StackScript.Proofs.Dating
import StackScript.Proofs.Tables

/-!
# What every action of the compiler keeps

The compiler reads only tokens of its text, the jumps to be filled in are jumps of the code, and the
tables of all functions that are being written are tidy. An action that succeeds keeps all of this;
one that fails does so for a reason that lies in the text. Both leave the nesting as it was.
-/

namespace StackScript

open Compile

structure Compiler.Ready (text : String) (known : Known) (mode : Mode) (compiler : Compiler) :
    Prop where
  dated : compiler.Dated text
  draft : compiler.draft.Tidy
  closed : mode.closes = true → compiler.draft.Closed
  around : ∀ outer ∈ compiler.enclosing, outer.Tidy ∧ outer.Closed
  shallow : compiler.nesting ≤ maxNesting
  jumps : ∀ jump ∈ known.jumps, jump + 2 ≤ compiler.draft.chunk.size ∧
    ∀ other ∈ compiler.draft.breaks, Apart jump other
  marks : ∀ mark ∈ known.marks, compiler.draft.chunk.Boundary mark
  last : ∀ kind ∈ known.last, compiler.previous.kind = kind
  before : ∀ kind ∈ known.before, ∃ token, token.kind = kind ∧
    token :: compiler.previous :: compiler.stream <:+ .unread :: tokens text

/-- Whether the compiler has got from one state to another by an action that succeeded. -/
structure Compiler.Proceeds (text : String) (mode : Mode) (compiler compiler' : Compiler) :
    Prop where
  reads : ∃ taken, compiler.Reads taken compiler'
  draft : compiler.draft.Onward mode compiler'.draft
  nesting_eq : compiler'.nesting = compiler.nesting
  onward : compiler.Onward text compiler'

/-- Whether an error is one that a text cannot be blamed for. -/
def CompileError.Kind.isDefect : CompileError.Kind → Bool
  | misplacedJump => true
  | invalidNumber _ => true
  | _ => false

/-- Whether an action ends as it should. -/
def Compiler.Concludes {α : Type} (text : String) (mode : Mode) (compiler : Compiler) :
    EStateM.Result CompileError Compiler α → Prop
  | .ok _ after => compiler.Proceeds text mode after
  | .error error after => after.nesting = compiler.nesting ∧ error.kind.isDefect = false

def Compile.Concluding {α : Type} (text : String) (known : Known) (mode : Mode)
    (action : Compile α) : Prop :=
  ∀ compiler : Compiler, compiler.Ready text known mode →
    compiler.Concludes text mode (action compiler)

/-- Whether a name was just bound so. -/
def Binding.Declared (draft : Draft) : Binding → Prop
  | .slot => ∃ entry outer, draft.locals = entry :: outer ∧
    (entry.depth = none ∨ entry.depth = some draft.depth)
  | .global _ => draft.depth = 0

/-! ## States -/

namespace Compiler

/-- The compiler in a new function. -/
def begun (compiler : Compiler) : Compiler :=
  { compiler with
    draft := (Draft.named compiler.previous.lexeme).openScope .function
    enclosing := compiler.draft :: compiler.enclosing }

/-- The compiler with other locals. -/
def withLocals (locals : List Local) (compiler : Compiler) : Compiler :=
  compiler.onDraft fun draft => { draft with locals := locals }

variable {text : String} {known : Known} {mode mode' : Mode} {compiler middle compiler' : Compiler}

namespace Ready

theorem ends (ready : compiler.Ready text known mode) : compiler.Ends := by
  rcases tokens_end text with ⟨front, ending, tokensEq, atEnd, before⟩
  rcases ready.dated.stream with ⟨taken, whole⟩
  cases all : tokens text with
  | nil => simp [all] at tokensEq
  | cons first rest =>
    -- The same compiler in front of the text has read what is missing from its tokens.
    have reads : { compiler with current := first, upcoming := rest }.Reads taken compiler :=
      ⟨(whole.trans all).symm, rfl⟩
    apply reads.ends
    exact ⟨front, ending, all.symm.trans tokensEq, atEnd, fun token present =>
      (before token present).1⟩

theorem upcoming_lt (ready : compiler.Ready text known mode) :
    compiler.upcoming.length < (tokens text).length :=
  ready.dated.stream.length_le

theorem spelled_last (ready : compiler.Ready text known mode) : compiler.previous.Spelled := by
  rcases List.mem_cons.mp ready.dated.previous_mem with unread | present
  · rw [unread]
    exact ⟨by simp [Token.unread, Token.atEnd], by simp [Token.unread, Token.atEnd]⟩
  · exact spelled_of_mem_tokens present

theorem into {before : Mode} (ready : compiler.Ready text known before)
    (proceeds : compiler.Proceeds text mode middle)
    (closed : mode'.closes = true → middle.draft.Closed) :
    middle.Ready text known.moved mode' where
  dated := proceeds.onward.dated
  draft := proceeds.draft.tidy
  closed := closed
  around := by
    rcases proceeds.reads with ⟨_, reads⟩
    rw [reads.enclosing_eq]
    exact ready.around
  shallow := proceeds.nesting_eq ▸ ready.shallow
  jumps jump present := by
    rcases ready.jumps jump present with ⟨inside, apart⟩
    refine ⟨Nat.le_trans inside proceeds.draft.onto.size_le, fun other left => ?_⟩
    rcases proceeds.draft.breaks other left with earlier | beyond
    · exact apart other earlier
    · exact .inl (Nat.lt_of_le_of_lt inside beyond)
  marks mark present := proceeds.draft.onto.boundary mark (ready.marks mark present)
  last := by simp [Known.moved]
  before := by simp [Known.moved]

section

variable (ready : compiler.Ready text known mode)
include ready

theorem next (proceeds : compiler.Proceeds text mode compiler') :
    compiler'.Ready text known.moved mode :=
  ready.into proceeds proceeds.draft.closed

theorem withDraft {draft : Draft} (onward : compiler.draft.Onward mode' draft)
    (grows : compiler.draft.chunk.Grows text compiler.previous.line draft.chunk) :
    compiler.Proceeds text mode' { compiler with draft := draft } where
  reads := ⟨[], rfl, rfl⟩
  draft := onward
  nesting_eq := rfl
  onward := ready.dated.wrote ⟨rfl, rfl, rfl, rfl⟩ grows

theorem write (opcode : Opcode) (operand : Nat) :
    compiler.Proceeds text mode
      (compiler.onDraft (·.write opcode operand compiler.previous.line)) :=
  ready.withDraft (ready.draft.write ready.closed opcode operand _) (.write opcode operand)

theorem refl : compiler.Proceeds text mode compiler :=
  ready.withDraft (ready.draft.refl ready.closed) .refl

theorem shift : compiler.Proceeds text mode compiler.shift := by
  have onward := ready.dated.shift
  have same := ready.refl.draft
  unfold Compiler.shift at onward ⊢
  split
  · next none =>
    simp only [none] at onward ⊢
    exact ⟨⟨[], by simp [Compiler.stream, none], rfl⟩, same, rfl, onward⟩
  · next token rest upcoming =>
    simp only [upcoming] at onward
    exact ⟨⟨[compiler.current], by simp [Compiler.stream, upcoming], rfl⟩, same, rfl, onward⟩

theorem read (ran : Compile.advance compiler = .ok () compiler') :
    compiler'.Ready text (known.read compiler.current.kind) mode := by
  rw [advance_eq_ok ran]
  refine { ready.next ready.shift with last := ?_ }
  intro kind isLast
  cases isLast
  unfold Compiler.shift
  split <;> rfl

end

theorem begun (ready : compiler.Ready text known .settled) :
    compiler.begun.Ready text .nothing .free where
  dated := ⟨ready.dated.stream, ready.dated.behind, fun _ present =>
    absurd present (Array.not_mem_empty _)⟩
  draft := .begun _
  closed _ := (Local.Stacked.bottom _).scope
  around := List.forall_mem_cons.mpr ⟨⟨ready.draft, ready.closed rfl⟩, ready.around⟩
  shallow := ready.shallow
  jumps := by simp [Known.nothing]
  marks := by simp [Known.nothing]
  last := by simp [Known.nothing]
  before := by simp [Known.nothing]

theorem named (ready : compiler.Ready text known mode) {expectation : Expectation}
    {binding : Binding} (ran : Compile.declare expectation compiler = .ok binding middle)
    (same : middle.SamePlace compiler') (moved : compiler'.Ready text known.moved mode') :
    compiler'.Ready text known.named mode' := by
  rcases Quiet.ofDeclare ran with ⟨named, ranExpect, sameNamed⟩
  have same := sameNamed.trans same
  refine { moved with last := fun kind isLast => ?_, before := fun kind isBefore => ?_ }
  · cases isLast
    rw [same.previous_eq]
    exact previous_of_expect ranExpect
  · refine ⟨compiler.previous, ready.last kind isBefore, ?_⟩
    rcases bind_eq_ok.mp ranExpect with ⟨found, _, looked, advances⟩
    rcases lookahead_eq_ok.mp looked with ⟨rfl, rfl⟩
    split at advances
    · next isName =>
      have more : compiler.upcoming ≠ [] :=
        ne_nil_of_suffix ready.dated.stream (by rw [isName]; decide)
      have behind := ready.dated.behind.resolve_right fun atEnd => more atEnd.2
      rcases List.exists_cons_of_ne_nil more with ⟨token, others, upcoming⟩
      rw [stream, same.previous_eq, same.current_eq, same.upcoming_eq, advance_eq_ok advances]
      simpa [Compiler.shift, Compiler.stream, upcoming] using behind
    · exact absurd advances failAhead_ne_ok

end Ready

theorem Proceeds.trans (first : compiler.Proceeds text mode middle)
    (second : middle.Proceeds text mode' compiler')
    (keeps : mode'.keeps = true → mode.keeps = true) : compiler.Proceeds text mode' compiler' where
  reads := by
    rcases first.reads with ⟨taken, reads⟩
    rcases second.reads with ⟨others, readsMore⟩
    exact ⟨taken ++ others, reads.trans readsMore⟩
  draft := first.draft.trans second.draft keeps
  nesting_eq := second.nesting_eq.trans first.nesting_eq
  onward := first.onward.trans second.onward

theorem Proceeds.upcoming_le (proceeds : compiler.Proceeds text mode compiler') :
    compiler'.upcoming.length ≤ compiler.upcoming.length := by
  rcases proceeds.reads with ⟨taken, reads⟩
  have total := congrArg List.length reads.stream_eq
  simp only [stream, List.length_append, List.length_cons] at total
  omega

end Compiler

namespace Binding.Declared

variable {binding : Binding} {before after : Draft} {compiler compiler' : Compiler}

theorem of_declare {expectation : Expectation}
    (ran : Compile.declare expectation compiler = .ok binding compiler') :
    binding.Declared compiler'.draft := by
  rcases bind_eq_ok.mp ran with ⟨_, named, _, ran⟩
  rw [get_bind] at ran
  split at ran
  · rcases bind_eq_ok.mp ran with ⟨_, _, opens, ends⟩
    rcases pure_eq_ok.mp ends with ⟨rfl, rfl⟩
    rcases bind_eq_ok.mp opens with ⟨name, _, read, opens⟩
    rcases lastLexeme_eq_ok.mp read with ⟨rfl, rfl⟩
    rw [get_bind] at opens
    split at opens
    · exact absurd opens fail_ne_ok
    · split at opens
      · exact absurd opens fail_ne_ok
      · rw [← modify_eq_ok.mp opens]
        exact ⟨_, _, rfl, .inl rfl⟩
  · next outside =>
    rcases bind_eq_ok.mp ran with ⟨name, _, read, ran⟩
    rcases lastLexeme_eq_ok.mp read with ⟨rfl, rfl⟩
    rcases bind_eq_ok.mp ran with ⟨index, _, names, ends⟩
    rcases pure_eq_ok.mp ends with ⟨rfl, rfl⟩
    have depthEq := Nat.eq_zero_of_not_pos outside
    rcases effect_nameConstant ⟨_, _, names, rfl, rfl⟩ with ⟨_, same⟩ | ⟨_, _, added⟩
    · rw [same]
      exact depthEq
    · rw [added]
      exact depthEq

theorem of_sameFrame (declared : binding.Declared before) (same : before.SameFrame after) :
    binding.Declared after := by
  cases binding with
  | slot =>
    rw [Declared, same.locals_eq, Draft.depth, same.scopes_eq]
    exact declared
  | global index =>
    rw [Declared, Draft.depth, same.scopes_eq]
    exact declared

theorem makeVisible (declared : binding.Declared compiler.draft)
    (ran : Compile.makeVisible binding compiler = .ok () compiler') :
    binding.Declared compiler'.draft := by
  cases binding with
  | slot =>
    rcases declared with ⟨entry, outer, localsEq, _⟩
    rw [← modify_eq_ok.mp ran]
    refine ⟨{ entry with depth := some compiler.draft.depth }, outer, ?_, .inr rfl⟩
    simp [Compiler.onDraft, Draft.initializeLocal, localsEq]
  | global index =>
    rw [← (pure_eq_ok.mp ran).2]
    exact declared

end Binding.Declared

/-! ## Actions -/

section Actions

variable {α β : Type} {text : String} {known : Known} {mode mode' : Mode} {compiler : Compiler}
  {action : Compile α}

/-- What follows on an action that succeeded ends as it should, seen from in front of both. -/
theorem Compiler.Proceeds.concludes {middle : Compiler}
    {result : EStateM.Result CompileError Compiler α}
    (proceeds : compiler.Proceeds text mode middle) (concluded : middle.Concludes text mode' result)
    (keeps : mode'.keeps = true → mode.keeps = true) : compiler.Concludes text mode' result := by
  cases result with
  | ok value after => exact proceeds.trans concluded keeps
  | error error after => exact ⟨concluded.1.trans proceeds.nesting_eq, concluded.2⟩

theorem Compiler.Concludes.bindFrom {origin : Compiler} {next : α → Compile β}
    (first : compiler.Concludes text mode (action compiler))
    (sameNesting : compiler.nesting = origin.nesting)
    (second : ∀ value after, action compiler = .ok value after → compiler.Proceeds text mode after →
      origin.Concludes text mode' (next value after)) :
    origin.Concludes text mode' ((action >>= next) compiler) := by
  rw [Compile.bind_apply]
  cases ran : action compiler with
  | error error after =>
    rw [ran] at first
    exact ⟨first.1.trans sameNesting, first.2⟩
  | ok value after =>
    rw [ran] at first
    exact second value after ran first

theorem Compiler.Concludes.bind {next : α → Compile β}
    (first : compiler.Concludes text mode (action compiler))
    (keeps : mode'.keeps = true → mode.keeps = true)
    (second : ∀ value after, action compiler = .ok value after → compiler.Proceeds text mode after →
      after.Concludes text mode' (next value after)) :
    compiler.Concludes text mode' ((action >>= next) compiler) :=
  first.bindFrom rfl fun value after ran proceeds =>
    proceeds.concludes (second value after ran proceeds) keeps

theorem Compile.concludes_advance (proceeds : compiler.Proceeds text mode compiler.shift) :
    compiler.Concludes text mode (advance compiler) := by
  simp only [advance]
  split
  · exact ⟨proceeds.nesting_eq, rfl⟩
  · exact proceeds

namespace Compile.Concluding

variable {opcode : Opcode} {action : Compile α} {binding : Binding} {kind : CompileError.Kind}

theorem bind {next : α → Compile β} (first : Concluding text known mode action)
    (second : ∀ value, Concluding text known.moved mode (next value)) :
    Concluding text known mode (action >>= next) := by
  intro compiler ready
  apply (first compiler ready).bind id
  intro value after _ proceeds
  exact second value after (ready.next proceeds)

theorem pure (value : α) : Concluding text known mode (pure value : Compile α) :=
  fun _ ready => ready.refl

theorem fail (regular : kind.isDefect = false) :
    Concluding text known mode (fail kind : Compile α) :=
  fun _ _ => ⟨rfl, regular⟩

theorem failAhead (regular : kind.isDefect = false) :
    Concluding text known mode (failAhead kind : Compile α) :=
  fun _ _ => ⟨rfl, regular⟩

theorem ofSame {value : Compiler → α}
    (same : ∀ compiler, action compiler = .ok (value compiler) compiler) :
    Concluding text known mode action := by
  intro compiler ready
  rw [same]
  exact ready.refl

theorem emit (bare : opcode.operandSize = 0) : Concluding text known mode (emit opcode) := by
  intro compiler ready
  rw [emit_apply bare]
  exact ready.write opcode 0

theorem emitWith (short : opcode.operandSize = 1) (operand : UInt8) :
    Concluding text known mode (emitWith opcode operand) := by
  intro compiler ready
  rw [emitWith_apply short]
  exact ready.write opcode _

theorem emitPops (count : Nat) : Concluding text known mode (emitPops count) := by
  induction count generalizing known with
  | zero => exact pure ()
  | succ count ih => exact bind (emit rfl) fun _ => ih

theorem emitReturn : Concluding text known mode emitReturn :=
  bind (emit rfl) fun _ => emit rfl

theorem emitGet (reference : Reference) : Concluding text known mode reference.emitGet := by
  cases reference with
  | slot number => exact emitWith rfl number
  | global index => exact emitWith rfl index

theorem emitSet (reference : Reference) : Concluding text known mode reference.emitSet := by
  cases reference with
  | slot number => exact emitWith rfl number
  | global index => exact emitWith rfl index

theorem makeConstant (constant : Constant)
    (proper : constant.Holds fun function => function.InTime text ∧ function.Dated text) :
    Concluding text known mode (makeConstant constant) := by
  intro compiler ready
  unfold Compile.makeConstant Chunk.addConstant?
  by_cases room : compiler.draft.chunk.constants.size < Chunk.maxConstants
  · rw [if_pos room]
    exact ready.withDraft (ready.draft.pool ready.closed constant room) (.hold proper)
  · rw [if_neg room]
    exact ⟨rfl, rfl⟩

theorem tell (event : Compiler → Compiler.Event) :
    Concluding text known mode (modify fun compiler => compiler.tell (event compiler)) :=
  fun _ ready => ⟨⟨[], rfl, rfl⟩, ready.refl.draft, rfl,
    ready.dated.wrote ⟨rfl, rfl, rfl, rfl⟩ .refl⟩

theorem advance : Concluding text known mode advance :=
  fun _ ready => concludes_advance ready.shift

theorem inspect {next : Compiler → Compile α}
    (each : ∀ compiler : Compiler, compiler.Ready text known mode →
      compiler.Concludes text mode (next compiler compiler)) :
    Concluding text known mode (get >>= next) :=
  fun compiler ready => each compiler ready

theorem lookahead : Concluding text known mode lookahead :=
  ofSame fun _ => rfl

theorem lastLexeme : Concluding text known mode lastLexeme :=
  ofSame fun _ => rfl

theorem codeSize : Concluding text known mode codeSize :=
  ofSame fun _ => rfl

theorem accept (kind : Token.Kind) : Concluding text known mode (accept kind) := by
  apply bind lookahead
  intro found
  split
  · exact bind advance fun _ => pure true
  · exact pure false

theorem expect (kind : Token.Kind) (expectation : Expectation) :
    Concluding text known mode (expect kind expectation) := by
  apply bind lookahead
  intro found
  split
  · exact advance
  · exact failAhead rfl

/-! ### Writing -/

theorem emitConstant (constant : Constant)
    (proper : constant.Holds fun function => function.InTime text ∧ function.Dated text) :
    Concluding text known mode (emitConstant constant) :=
  bind (makeConstant constant proper) fun index => emitWith rfl index

theorem nameConstant (name : String) : Concluding text known mode (nameConstant name) := by
  apply inspect
  intro compiler ready
  cases compiler.draft.names[name]? with
  | some index => exact pure index compiler ready
  | none =>
    apply (makeConstant (.string name) trivial compiler ready).bind id
    intro index pooled made proceeds
    have readyPooled := ready.next proceeds
    rcases makeConstant_eq_ok made with ⟨_, indexEq, rfl⟩
    have named : (compiler.draft.pool (.string name)).chunk.Names index.toNat name :=
      indexEq ▸ Array.getElem?_push_size
    exact readyPooled.withDraft (readyPooled.draft.remember readyPooled.closed named) .refl

theorem emitJump (wide : opcode.operandSize = 2) :
    Concluding text known mode (emitJump opcode) := by
  intro compiler ready
  rw [emitJump_apply wide]
  exact ready.write opcode _

theorem patchJump {offset : Nat} (written : offset ∈ known.jumps) :
    Concluding text known mode (patchJump offset) := by
  intro compiler ready
  rcases ready.jumps offset written with ⟨inside, apart⟩
  rw [patchJump_apply inside]
  split
  · exact ready.withDraft (ready.draft.patch ready.closed apart _) (.patchWord offset _)
  · exact ⟨rfl, rfl⟩

theorem emitLoop {start : Nat} (marked : start ∈ known.marks) :
    Concluding text known mode (emitLoop start) := by
  intro compiler ready
  rw [emitLoop_apply (Nat.le_add_right_of_le (ready.marks start marked).1)]
  split
  · exact ready.write .loop _
  · exact ⟨rfl, rfl⟩

theorem number (last : known.last = some .number) : Concluding text known mode number := by
  intro compiler ready
  rcases Option.isSome_iff_exists.mp (ready.spelled_last.number (ready.last _ last)) with
    ⟨value, denotes⟩
  rw [Compile.number, bind_of_ok (show Compile.lastLexeme compiler = .ok _ compiler from rfl),
    denotes]
  exact emitConstant (.number value) trivial compiler ready

theorem string : Concluding text known mode string :=
  bind lastLexeme fun _ => emitConstant (.string _) trivial

/-! ### Scopes and variables -/

theorem openScope (kind : ScopeKind) : Concluding text known .free (openScope kind) :=
  fun _ ready => ready.withDraft (ready.draft.openScope (ready.closed rfl) kind) .refl

theorem patchAll {offsets : List Nat} (locals : List Local) (ready : compiler.Ready text known mode)
    (written : ∀ offset ∈ offsets, offset ∈ known.jumps) :
    (∃ after, offsets.forM Compile.patchJump (compiler.withLocals locals) =
        .ok () (after.withLocals locals) ∧ compiler.Proceeds text mode after) ∨
      ∃ error after, offsets.forM Compile.patchJump (compiler.withLocals locals) =
        .error error after ∧ after.nesting = compiler.nesting ∧ error.kind.isDefect = false := by
  induction offsets generalizing compiler known with
  | nil => exact .inl ⟨compiler, rfl, ready.refl⟩
  | cons offset rest ih =>
    rcases List.forall_mem_cons.mp written with ⟨here, further⟩
    rcases ready.jumps offset here with ⟨inside, apart⟩
    have applies :=
      patchJump_apply (show _ ≤ (compiler.withLocals locals).draft.chunk.size from inside)
    by_cases near : compiler.draft.chunk.size - (offset + 2) ≤ maxDistance
    · have proceeds := ready.withDraft (ready.draft.patch ready.closed apart
        (compiler.draft.chunk.size - (offset + 2))) (.patchWord offset _)
      have runs : (offset :: rest).forM Compile.patchJump (compiler.withLocals locals) = _ :=
        bind_of_ok (applies.trans (if_pos near))
      rcases ih (ready.next proceeds) further with
        ⟨after, ran, onward⟩ | ⟨error, after, ran, failed⟩
      · exact .inl ⟨after, runs.trans ran, proceeds.trans onward id⟩
      · exact .inr ⟨error, after, runs.trans ran, failed⟩
    · refine .inr ⟨.atToken compiler.previous .jumpTooLarge, compiler.withLocals locals, ?_, rfl,
        rfl⟩
      change (Compile.patchJump offset >>= fun _ => rest.forM Compile.patchJump) _ = _
      rw [bind_apply, applies.trans (if_neg near)]
      rfl

theorem closeScope : Concluding text known .free closeScope := by
  apply inspect
  intro compiler ready
  cases scopesEq : compiler.draft.scopes with
  | nil => exact pure () compiler ready
  | cons scope outer =>
    have closes := ready.withDraft (ready.draft.closeScope (ready.closed rfl) scopesEq) .refl
    have breaksEq : compiler.draft.breaks = scope.breaks ++ outer.flatMap Scope.breaks := by
      rw [Draft.breaks, scopesEq, List.flatMap_cons]
    -- The jumps that leave the scope are those to be filled in.
    have leaving : Compiler.Ready text ⟨scope.breaks, [], none, none⟩ .settled
        { compiler with draft := { compiler.draft with scopes := outer }.dropFrom scope.depth } :=
      { ready.into closes fun _ => closes.draft.closed rfl with
        jumps := fun jump left => by
          have apart := ready.draft.apart
          rw [breaksEq] at apart
          exact ⟨ready.draft.inside (breaksEq ▸ List.mem_append_left _ left),
            (List.pairwise_append.mp apart).2.2 jump left⟩
        marks := by simp }
    refine closes.concludes ?_ id
    change Compiler.Concludes text .free _ ((scope.breaks.reverse.forM Compile.patchJump >>= _)
      (Compiler.withLocals compiler.draft.locals
        { compiler with draft := { compiler.draft with scopes := outer }.dropFrom scope.depth }))
    rw [bind_apply]
    rcases patchAll compiler.draft.locals leaving fun _ => List.mem_reverse.mp with
      ⟨patched, ran, proceeds⟩ | ⟨error, failed, ran, same, regular⟩
    · have dropped : (patched.withLocals compiler.draft.locals).onDraft (·.dropFrom scope.depth) =
          patched := by
        have localsEq : patched.draft.locals =
          compiler.draft.locals.dropWhile (·.isOpenFrom scope.depth) :=
            (proceeds.draft.frame rfl).locals_eq
        simp only [Compiler.withLocals, Compiler.onDraft, Draft.dropFrom]
        rw [← localsEq]
      rw [ran]
      change Compiler.Concludes text .free _ ((Compile.emitPops _ >>= _)
        ((patched.withLocals compiler.draft.locals).onDraft (·.dropFrom scope.depth)))
      rw [dropped]
      exact proceeds.concludes (bind (emitPops _) (fun _ => tell _) patched
        (leaving.into proceeds fun _ => proceeds.draft.closed rfl)) (by rintro ⟨⟩)
    · rw [ran]
      exact ⟨same, regular⟩

theorem declareLocal (ready : compiler.Ready text known .free) (inside : 0 < compiler.draft.depth) :
    compiler.Concludes text .loose (declareLocal compiler) := by
  change compiler.Concludes text .loose
    ((if _ then _ else if _ then _ else _ : Compile Unit) compiler)
  split
  · exact ⟨rfl, rfl⟩
  · next fresh =>
    split
    · exact ⟨rfl, rfl⟩
    · next room =>
      exact ready.withDraft
        (ready.draft.addLocal (ready.closed rfl) inside fresh (Nat.not_le.mp room)) .refl

theorem declare (expectation : Expectation) (ready : compiler.Ready text known .free) :
    compiler.Concludes text .loose (declare expectation compiler) := by
  refine (expect .identifier expectation compiler ready).bind nofun fun _ named _ proceeds => ?_
  have readyNamed := ready.next proceeds
  change named.Concludes text .loose ((if _ then _ else _ : Compile Binding) named)
  split
  · next inside =>
    apply (declareLocal readyNamed inside).bindFrom rfl
    exact fun _ _ _ declares => declares
  · apply (nameConstant named.previous.lexeme named readyNamed).bindFrom rfl
    intro index after _ proceeds
    exact { proceeds with draft := { proceeds.draft with closed := nofun, frame := nofun } }

theorem makeVisible (ready : compiler.Ready text known mode)
    (declared : binding.Declared compiler.draft) :
    compiler.Concludes text .free (makeVisible binding compiler) := by
  cases binding with
  | slot =>
    rcases declared with ⟨entry, outer, localsEq, here⟩
    exact ready.withDraft (ready.draft.initializeLocal localsEq here) .refl
  | global index =>
    exact ready.withDraft (ready.draft.refl fun _ => ready.draft.closed_of_outside declared) .refl

theorem define (ready : compiler.Ready text known mode)
    (declared : binding.Declared compiler.draft) :
    compiler.Concludes text .free (define binding compiler) := by
  cases binding with
  | slot => exact makeVisible ready declared
  | global index =>
    exact emitWith rfl index compiler
      { ready with closed := fun _ => ready.draft.closed_of_outside declared }

theorem resolve (name : String) : Concluding text known mode (resolve name) := by
  apply inspect
  intro compiler ready
  rcases Local.resolve? name compiler.draft.locals with _ | ⟨slot, opened, _ | depth⟩
  · exact bind (nameConstant name) (fun index => pure _) compiler ready
  · exact fail rfl compiler ready
  · exact pure _ compiler ready

theorem breakStatement : Concluding text known .free breakStatement := by
  apply inspect
  intro compiler ready
  cases Scope.innermostLoop? compiler.draft.scopes with
  | none => exact fail rfl compiler ready
  | some loop =>
    refine bind (expect _ _) (fun _ => ?_) compiler ready
    apply inspect
    intro closed readyClosed
    refine bind (emitPops _) (fun _ popped readyPopped => ?_) closed readyClosed
    rw [bind_of_ok (emitJump_apply rfl popped)]
    exact readyPopped.withDraft (readyPopped.draft.leave (readyPopped.closed rfl) _) (.write _ _)

theorem continueStatement : Concluding text known mode continueStatement := by
  apply inspect
  intro compiler ready
  cases found : Scope.innermostLoop? compiler.draft.scopes with
  | none => exact fail rfl compiler ready
  | some loop =>
    have inOrder := ready.draft.scopes loop (List.mem_of_find?_eq_some found)
    have marked : compiler.Ready text ⟨[], [loop.loopStart], none, none⟩ mode :=
      { ready with
        jumps := by simp
        marks := by simpa using inOrder.loopStart
        last := by simp
        before := by simp }
    refine bind (expect _ _) (fun _ => ?_) compiler marked
    apply inspect
    intro closed readyClosed
    exact bind (emitPops _) (fun _ => emitLoop List.mem_cons_self) closed readyClosed

theorem endFunction (ready : compiler.Ready text known .settled)
    (last : known.last = some .identifier)
    (before : known.before = some (.keyword .funKw)) {levels : Nat} {done returned : Compiler}
    (ranBody : parametersAndBody (.level levels) compiler.begun = .ok () done)
    (returns : Compile.emitReturn done = .ok () returned)
    (proceeds : compiler.begun.Proceeds text .free returned) :
    compiler.Concludes text .settled
      ((do Compile.emitConstant (.function (← Compile.endFunction)) : Compile Unit) returned) := by
  rcases proceeds.reads with ⟨taken, reads⟩
  have onward := proceeds.onward
  have around : returned.enclosing = compiler.draft :: compiler.enclosing := reads.enclosing_eq
  have ended : compiler.Proceeds text .settled
      ({ returned with draft := compiler.draft, enclosing := compiler.enclosing }.tell
        (.finished returned.draft.function)) :=
    ⟨⟨taken, reads.stream_eq, rfl⟩, ready.refl.draft, proceeds.nesting_eq,
      ⟨onward.dated.stream, onward.dated.behind, ready.dated.functions⟩, onward.later,
      [], (List.append_nil _).symm, .nil⟩
  rw [bind_of_ok (show Compile.endFunction returned = .ok _ _ by
    rw [Compile.endFunction, around])]
  rcases ready.before _ before with ⟨keyword, isFun, suffix⟩
  have announced : returned.draft.function.AnnouncedBy text keyword :=
    ⟨isFun, compiler, levels, returned, suffix_tokens suffix (by rw [isFun]; decide),
      ready.last _ last, bind_eq_ok.mpr ⟨(), compiler.begun, rfl,
        bind_eq_ok.mpr ⟨(), done, ranBody, returns⟩⟩, rfl⟩
  have sorted := (readable_sorted text).sublist suffix.sublist
  have inTime : returned.draft.function.InTime text :=
    ⟨keyword, announced, (onward.ordered rfl).mono
      ((List.pairwise_cons.mp sorted).1 _ List.mem_cons_self) (Nat.le_refl _)⟩
  exact ended.concludes (emitConstant (.function _) ⟨inTime, onward.function rfl returns⟩ _
    (ready.next ended)) id

theorem finish : Concluding text known mode finish := by
  apply bind emitReturn
  intro _
  apply inspect
  intro compiler ready
  exact bind (tell fun _ => _) (fun _ => pure _) compiler ready

end Compile.Concluding

end Actions

end StackScript
