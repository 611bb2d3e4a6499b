import StackScript.Proofs.Observing.Basic
import StackScript.Proofs.Placement.Expression
import StackScript.Proofs.Steadiness
import StackScript.Proofs.UniqueTree

/-!
# Observed runs are runs of the compiler

With enough rounds and depth nothing is cut off, the result is that of the compiler, and all that
was noted is in order. There is one rule for each way of putting actions together.
-/

namespace StackScript

open Compile
open Observed (step)

/--
Whether a run was not cut off, has a result that is as it should be, and was noted in order, with
these calls open before and after it.
-/
structure Run.Shows {α : Type} (text : String) (calls : List Procedure) (mode : Mode)
    (origin : Compiler) (run : Run α) (result : EStateM.Result CompileError Compiler α) : Prop where
  concludes : origin.Concludes text mode result
  result_eq : run.result = some result
  proper : Observation.AllProper text calls run.observations
  balanced : run.observations.foldl Observation.track calls = calls

/-- Whether parts of an expression are read for a variable if its local may have no value yet. -/
def Procedure.Initializes (mode : Mode) (outer : List Procedure) (caller : Procedure) : Prop :=
  mode.closes = false → caller.isPart = true → Initializing outer

/-- Whether an observed action of a procedure shows what an action of the compiler does. -/
def Observed.Shadows {α : Type} (text : String) (levels : Nat) (known : Known) (mode : Mode)
    (caller : Procedure) (observed : Observed α) (action : Compile α) : Prop :=
  ∀ (outer : List Procedure) (compiler : Compiler), caller.Initializes mode outer →
    maxNesting < levels + compiler.nesting → compiler.Ready text known mode →
    (observed compiler).Shows text (caller :: outer) mode compiler (action compiler)

section Rules

variable {α β : Type} {text : String} {known : Known} {mode mode' : Mode} {caller : Procedure}
  {calls : List Procedure} {compiler origin after : Compiler} {levels : Nat}

namespace Procedure

variable {kind : Token.Kind} {procedure : Procedure}

theorem mem_literals {value : KeywordLiteral} (leads : kind.leading? = some (.literal value)) :
    kind ∈ literals := by
  unfold Token.Kind.leading? at leads
  split at leads <;> simp_all [literals]

theorem mem_unaries {operator : UnaryOperator} (leads : kind.leading? = some (.unary operator)) :
    kind ∈ unaries := by
  unfold Token.Kind.leading? at leads
  split at leads <;> simp_all [unaries]

theorem mem_binaries {operator : BinaryOperator}
    (continues : kind.trailing? = some (.binary operator)) : kind ∈ binaries := by
  unfold Token.Kind.trailing? at continues
  split at continues <;> simp_all [binaries]

theorem suits_of_fits (ready : compiler.Ready text known mode) (fits : procedure.Fits known) :
    procedure.Suits compiler.previous := by
  have spelled := ready.spelled_last
  cases procedure with
  | leading assignable form =>
    rcases fits with ⟨kind, last, leads⟩
    cases ready.last kind last
    rcases Built.kind_of_leading leads with ⟨ofNumber, ofString, _⟩
    cases form with
    | literal value => exact mem_literals leads
    | unary operator => exact mem_unaries leads
    | number => exact spelled.number (ofNumber rfl)
    | string => exact spelled.isSpan_unquoted (ofString rfl)
    | _ => trivial
  | trailing form =>
    rcases fits with ⟨kind, last, continues⟩
    cases ready.last kind last
    cases form with
    | binary operator => exact mem_binaries continues
    | _ => trivial
  | _ => trivial

theorem consumes_of_reads {taken : List Token} (ends : compiler.Ends)
    (reads : compiler.Reads taken after) (some : taken ≠ []) : compiler.Consumes after := by
  refine ⟨taken, some, reads.stream_eq, ?_⟩
  rcases reads.ends ends with ⟨rest, last, streamEq', _, _⟩
  rcases ends with ⟨front, ending, streamEq, _, before⟩
  rw [reads.stream_eq, streamEq', ← List.append_assoc] at streamEq
  intro token present
  apply before
  rw [← (List.append_inj' streamEq rfl).1]
  exact List.mem_append_left _ present

theorem consumes_of_readOperand {level : Precedence} (ends : compiler.Ends)
    (read : compiler.ReadOperand level after) : compiler.Consumes after := by
  rcases read with ⟨tokens, _, reads, ⟨_, _, _, chain⟩, _⟩
  rcases chain.exists_first with ⟨first, more, _, rfl, _⟩
  exact consumes_of_reads ends reads (List.cons_ne_nil _ _)

theorem consumes {levels : Nat} (productive : procedure.isProductive = true)
    (fits : procedure.Fits known) (ends : compiler.Ends)
    (ran : procedure.action levels compiler = .ok () after) : compiler.Consumes after := by
  have sound := Parser.level_sound levels
  cases procedure with
  | declaration =>
    rcases declaration_read sound ends ran with ⟨tokens, _, reads, ⟨_, derives⟩, _⟩
    exact consumes_of_reads ends reads derives.declaration_ne_nil
  | statement =>
    rcases sound.statement ends ran with ⟨tokens, _, reads, ⟨_, derives⟩, _⟩
    exact consumes_of_reads ends reads derives.statement_ne_nil
  | expression =>
    exact consumes_of_readOperand ends (expression_read sound ends ran).1
  | operand precedence =>
    exact consumes_of_readOperand ends (sound.operand fits.1 fits.2 ends ran).1
  | _ => cases productive

end Procedure

theorem Compile.nested_of_room (body : Compile Unit) (room : compiler.nesting < maxNesting) :
    nested body compiler =
      Observed.lowered (body { compiler with nesting := compiler.nesting + 1 }) := by
  rw [nested, if_pos room]
  cases body { compiler with nesting := compiler.nesting + 1 } <;> rfl

theorem Compiler.Concludes.lowered {result : EStateM.Result CompileError Compiler Unit}
    (concluded : { compiler with nesting := compiler.nesting + 1 }.Concludes text mode result) :
    compiler.Concludes text mode (Observed.lowered result) := by
  cases result with
  | ok value after =>
    rcases concluded.reads with ⟨taken, reads⟩
    have onward := concluded.onward
    refine ⟨⟨taken, Parser.reads_of_nested reads⟩, concluded.draft, ?_,
      ⟨onward.dated.stream, onward.dated.behind, onward.dated.functions⟩,
      onward.later, onward.added⟩
    simp only [concluded.nesting_eq, Nat.add_sub_cancel]
  | error error after =>
    refine ⟨?_, concluded.2⟩
    simp only [concluded.1, Nat.add_sub_cancel]

theorem Compiler.Concludes.nesting_eq {result : EStateM.Result CompileError Compiler α}
    (concluded : compiler.Concludes text mode result) :
    (Observed.reached result).nesting = compiler.nesting := by
  cases result with
  | ok value after => exact Proceeds.nesting_eq concluded
  | error error after => exact concluded.1

theorem Compiler.defined_of_mem
    (inText : ∀ token ∈ compiler.previous :: compiler.stream, token ∈ .unread :: tokens text)
    (few : compiler.draft.locals.length ≤ maxLocals) : compiler.Defined text where
  spans token present := by
    rcases List.mem_cons.mp (inText token present) with rfl | inTokens
    · exact isSpan_append "" "" text
    · exact isSpan_of_mem_tokens inTokens
  slots name slot entry found :=
    UInt8.toNat_ofNat_of_lt' (Nat.lt_of_lt_of_le (Local.resolve?_lt found) few)

theorem Compiler.Ready.defined (ready : compiler.Ready text known mode) :
    compiler.Defined text := by
  refine defined_of_mem (List.forall_mem_cons.mpr ⟨ready.dated.previous_mem, ?_⟩) ready.draft.few
  exact fun token ahead => List.mem_cons_of_mem _ (ready.dated.stream.subset ahead)

theorem Compiler.Ready.tidy (ready : compiler.Ready text known mode)
    (initializing : mode.closes = false → Procedure.Initializing calls) : compiler.Tidy calls := by
  refine ⟨ready.draft, ?_, ready.around⟩
  cases closes : mode.closes with
  | true => exact .inl (ready.closed closes)
  | false => exact .inr (initializing closes)

theorem Compiler.Proceeds.above (proceeds : compiler.Proceeds text mode after)
    (above : maxNesting < levels + compiler.nesting) : maxNesting < levels + after.nesting :=
  proceeds.nesting_eq ▸ above

/-! ## Single runs -/

namespace Run.Shows

variable {run : Run α} {result : EStateM.Result CompileError Compiler α} {action : Compile α}
  {next : α → Observed β} {observed : Observed α} {onward : α → Compile β}

theorem proceeds {value : α} (shown : run.Shows text calls mode origin (.ok value after)) :
    origin.Proceeds text mode after :=
  shown.concludes

theorem since (proceeds : origin.Proceeds text mode compiler)
    (shown : run.Shows text calls mode' compiler result)
    (keeps : mode'.keeps = true → mode.keeps = true) : run.Shows text calls mode' origin result :=
  { shown with concludes := proceeds.concludes shown.concludes keeps }

theorem step (defined : compiler.Defined text)
    (concluded : origin.Concludes text mode (action compiler)) :
    (step action compiler).Shows text calls mode origin (action compiler) :=
  ⟨concluded, rfl, ⟨defined, trivial⟩, rfl⟩

theorem stepThen {value : α} {result : EStateM.Result CompileError Compiler β}
    (defined : compiler.Defined text) (ran : action compiler = .ok value after)
    (rest : (next value after).Shows text calls mode origin result) :
    ((Observed.step action >>= next) compiler).Shows text calls mode origin result := by
  change (Observed.andThen next ⟨[.stepped compiler], some (action compiler)⟩).Shows _ _ _ _ _
  rw [ran]
  exact { rest with proper := ⟨defined, rest.proper⟩ }

theorem bindFrom (first : (observed compiler).Shows text calls mode compiler (action compiler))
    (sameNesting : compiler.nesting = origin.nesting)
    (second : ∀ value after, action compiler = .ok value after → compiler.Proceeds text mode after →
      (next value after).Shows text calls mode' origin (onward value after)) :
    ((observed >>= next) compiler).Shows text calls mode' origin
      ((action >>= onward) compiler) := by
  have concluded := first.concludes.bindFrom sameNesting fun value after ran proceeds =>
    (second value after ran proceeds).concludes
  rw [bind_apply] at concluded ⊢
  change (Observed.andThen next (observed compiler)).Shows text calls mode' origin _
  rcases first with ⟨firstConcluded, resultEq, proper, balanced⟩
  generalize observed compiler = run at resultEq proper balanced ⊢
  rcases run with ⟨observations, outcome⟩
  cases resultEq
  cases ran : action compiler with
  | error error after =>
    rw [ran] at concluded
    exact ⟨concluded, rfl, proper, balanced⟩
  | ok value after =>
    rw [ran] at firstConcluded
    rcases second value after ran firstConcluded with ⟨concludes, resultEq, properToo, balancedToo⟩
    refine ⟨concludes, resultEq, Observation.allProper_append.mpr ⟨proper, ?_⟩, ?_⟩
    · rw [balanced]
      exact properToo
    · change (observations ++ _).foldl Observation.track calls = calls
      rw [List.foldl_append, balanced]
      exact balancedToo

theorem bind (first : (observed compiler).Shows text calls mode compiler (action compiler))
    (keeps : mode'.keeps = true → mode.keeps = true)
    (second : ∀ value after, action compiler = .ok value after → compiler.Proceeds text mode after →
      (next value after).Shows text calls mode' after (onward value after)) :
    ((observed >>= next) compiler).Shows text calls mode' compiler ((action >>= onward) compiler) :=
  first.bindFrom rfl fun value after ran proceeds =>
    (second value after ran proceeds).since proceeds keeps

end Run.Shows

/-! ## Actions -/

namespace Observed.Shadows

variable {observed doRound : Observed Unit} {rounds levels : Nat} {body round : Compile Unit}
  {action : Compile α} {ask : Observed Bool} {getItem : α → Observed α} {item : α → Compile α}
  {more : Compile Bool} {outer : List Procedure}

theorem bind {observed : Observed α} {next : α → Observed β} {onward : α → Compile β}
    (first : Shadows text levels known mode caller observed action)
    (second : ∀ value, Shadows text levels known.moved mode caller (next value) (onward value)) :
    Shadows text levels known mode caller (observed >>= next) (action >>= onward) := by
  intro outer compiler initializes above ready
  apply (first outer compiler initializes above ready).bind id
  intro value after _ proceeds
  exact second value outer after initializes (proceeds.above above) (ready.next proceeds)

theorem step (concluding : Concluding text known mode action) :
    Shadows text levels known mode caller (step action) action :=
  fun _ compiler _ _ ready => .step ready.defined (concluding compiler ready)

theorem read {next : Token.Kind → Observed α} {onward : Token.Kind → Compile α}
    (rest : ∀ kind, Shadows text levels (known.read kind) mode caller (next kind) (onward kind)) :
    Shadows text levels known mode caller
      (do
        let kind ← Observed.step Compile.lookahead
        Observed.step Compile.advance
        next kind)
      (do
        let kind ← Compile.lookahead
        Compile.advance
        onward kind) := by
  intro outer compiler initializes above ready
  apply (step .lookahead outer compiler initializes above ready).bind id
  intro kind same ranLook _
  rcases lookahead_eq_ok.mp ranLook with ⟨rfl, rfl⟩
  apply (step .advance outer compiler initializes above ready).bind id
  intro _ after ran proceeds
  exact rest _ outer after initializes (proceeds.above above) (ready.read ran)

theorem perform {procedure : Procedure} {depth : Nat} {call : Compiler → Observation}
    {body : Nat → Observed Unit} (may : caller.MayCall procedure mode) (fits : procedure.Fits known)
    (tracks : ∀ compiler calls, (call compiler).track calls = procedure :: calls)
    (calling : ∀ compiler calls, compiler.Ready text known mode → compiler.Tidy calls →
      (call compiler).Proper text calls)
    (inside : Shadows text levels known mode procedure (body depth) (procedure.action levels)) :
    Shadows text levels known mode caller (.perform procedure call body (depth + 1))
      (procedure.action levels) := by
  intro outer compiler initializes above ready
  have initializing (opens : mode.closes = false) : Procedure.Initializing (caller :: outer) :=
    (may opens).2.imp_right fun part => ⟨part, initializes opens part⟩
  rcases inside (caller :: outer) compiler (fun opens _ => initializing opens) above ready with
    ⟨concluded, resultEq, proper, balanced⟩
  have returns : (Observation.returned procedure compiler
      (succeeded (procedure.action levels compiler))
      (reached (procedure.action levels compiler))).Proper text (procedure :: caller :: outer) := by
    have performs : procedure.Performs compiler _ _ :=
      ⟨levels, ready.ends, above, ready.draft.room, rfl, rfl⟩
    cases ran : procedure.action levels compiler with
    | ok value after =>
      rw [ran] at concluded performs
      exact ⟨concluded.nesting_eq,
        fun _ productive => Procedure.consumes productive fits ready.ends ran,
        fun _ => (ready.next concluded).tidy initializing, performs⟩
    | error error after =>
      rw [ran] at performs
      exact ⟨(ran ▸ concluded).1, nofun, nofun, performs⟩
  dsimp only [Observed.perform]
  generalize body depth compiler = run at resultEq proper balanced ⊢
  rcases run with ⟨observations, outcome⟩
  cases resultEq
  dsimp only at proper balanced
  refine ⟨concluded, rfl, ⟨calling compiler _ ready (ready.tidy initializing), ?_⟩, ?_⟩
  · rw [tracks]
    refine Observation.allProper_append.mpr ⟨proper, ?_⟩
    rw [balanced]
    exact ⟨returns, trivial⟩
  · change (call compiler :: observations ++ [_]).foldl Observation.track _ = _
    rw [List.cons_append, List.foldl_cons, List.foldl_append, tracks, balanced]
    rfl

theorem nested (inside : Shadows text levels known mode caller observed body) :
    Shadows text (levels + 1) known mode caller (.nested observed) (Compile.nested body) := by
  intro outer compiler initializes above ready
  by_cases room : compiler.nesting < maxNesting
  · have deeper : { compiler with nesting := compiler.nesting + 1 }.Ready text known mode :=
      { ready with
        shallow := room
        dated := ⟨ready.dated.stream, ready.dated.behind, ready.dated.functions⟩ }
    rcases inside outer _ initializes (by simp only; omega) deeper
      with ⟨concluded, resultEq, proper, balanced⟩
    rw [nested_of_room body room, Observed.nested, if_pos room]
    exact ⟨concluded.lowered, congrArg (Option.map lowered) resultEq, proper, balanced⟩
  · rw [Compile.nested, Observed.nested, if_neg room, if_neg room]
    exact step (.failAhead rfl) outer compiler initializes above ready

/-! ### Loops -/

section

variable (asks : Shadows text levels known.moved mode caller ask more)
  (does : Shadows text levels known.moved mode caller doRound round) (stays : StaysInText more)
  (advances : ∀ compiler after : Compiler, maxNesting < levels + compiler.nesting →
    compiler.Ready text known.moved mode → compiler.current.kind ≠ .endOfText →
    round compiler = .ok () after → after.upcoming.length < compiler.upcoming.length)
include asks does stays advances

theorem repeatWithin (bound : List Token) (initializes : caller.Initializes mode outer)
    (above : maxNesting < levels + compiler.nesting)
    (ready : compiler.Ready text known.moved mode)
    (within : compiler.upcoming.length ≤ bound.length)
    (enough : compiler.upcoming.length < rounds) :
    (Observed.repeatWhile ask doRound rounds compiler).Shows text (caller :: outer) mode compiler
      (Compile.repeatWithin more round bound compiler) := by
  have stops : Shadows text levels known.moved mode caller (pure ()) (pure ()) :=
    fun _ _ _ _ ready => ⟨ready.refl, rfl, trivial, rfl⟩
  induction bound generalizing rounds compiler with
  | nil =>
    rcases rounds with _ | rounds
    · exact absurd enough (Nat.not_lt_zero _)
    · apply (asks outer compiler initializes above ready).bind id
      intro goesOn asked ran proceeds
      cases goesOn with
      | false => exact stops outer asked initializes (proceeds.above above) (ready.next proceeds)
      | true =>
        -- Nothing is left to be read, so the loop does not go on.
        have atEnd := ready.ends.atEnd_iff.mpr (List.length_eq_zero_iff.mp (Nat.le_zero.mp within))
        exact absurd atEnd (stays compiler asked ran).2
  | cons token bound ih =>
    rcases rounds with _ | rounds
    · exact absurd enough (Nat.not_lt_zero _)
    · apply (asks outer compiler initializes above ready).bind id
      intro goesOn asked ran proceeds
      cases goesOn with
      | false => exact stops outer asked initializes (proceeds.above above) (ready.next proceeds)
      | true =>
        rcases stays compiler asked ran with ⟨rfl, more⟩
        apply (does outer asked initializes above ready).bind id
        intro _ after ranRound proceedsRound
        have shorter := advances asked after above ready more ranRound
        rw [List.length_cons] at within
        exact ih (proceedsRound.above above) (ready.next proceedsRound) (by omega) (by omega)

theorem repeatWhile (enough : (tokens text).length < rounds) :
    Shadows text levels known mode caller (.repeatWhile ask doRound rounds)
      (Compile.repeatWhile more round) :=
  fun _ compiler initializes above ready =>
    repeatWithin asks does stays advances compiler.upcoming initializes above
      (ready.next ready.refl) (Nat.le_refl _) (Nat.lt_trans ready.upcoming_lt enough)

end

theorem separatedWithin
    (each : ∀ value, Shadows text levels known.moved mode caller (getItem value) (item value))
    (bound : List Token) (value : α) (initializes : caller.Initializes mode outer)
    (above : maxNesting < levels + compiler.nesting)
    (ready : compiler.Ready text known.moved mode)
    (within : compiler.upcoming.length ≤ bound.length)
    (enough : compiler.upcoming.length < rounds) :
    (Observed.separated getItem rounds value compiler).Shows text (caller :: outer) mode compiler
      (Compile.separatedWithin item bound value compiler) := by
  have stops (value : α) : Shadows text levels known.moved mode caller (pure value) (pure value) :=
    fun _ _ _ _ ready => ⟨ready.refl, rfl, trivial, rfl⟩
  induction bound generalizing rounds compiler value with
  | nil =>
    rcases rounds with _ | rounds
    · exact absurd enough (Nat.not_lt_zero _)
    · rw [Compile.separatedWithin, ← bind_pure (item value)]
      apply (each value outer compiler initializes above ready).bind id
      intro next behind ran proceeds
      have readyBehind : behind.Ready text known.moved mode := ready.next proceeds
      have nothing := Nat.le_trans proceeds.upcoming_le within
      have atEnd := readyBehind.ends.atEnd_iff.mpr
        (List.length_eq_zero_iff.mp (Nat.le_zero.mp nothing))
      have declines : accept .comma behind = .ok false behind := by
        rw [accept,
          bind_of_ok (show Compile.lookahead behind = .ok _ behind from rfl),
          if_neg (by rw [atEnd]; decide)]
        rfl
      exact .stepThen readyBehind.defined declines
        (stops next outer behind initializes (proceeds.above above) readyBehind)
  | cons token bound ih =>
    rcases rounds with _ | rounds
    · exact absurd enough (Nat.not_lt_zero _)
    · apply (each value outer compiler initializes above ready).bind id
      intro next behind ran proceeds
      have readyBehind : behind.Ready text known.moved mode := ready.next proceeds
      have above := proceeds.above above
      apply (step (.accept .comma) outer behind initializes above readyBehind).bind id
      intro accepted after ranAccept proceedsAccept
      cases accepted with
      | false =>
        exact stops next outer after initializes (proceedsAccept.above above)
          (readyBehind.next proceedsAccept)
      | true =>
        rcases accept_advances ranAccept readyBehind.ends (by decide) with
          ⟨_, _, advances⟩ | ⟨isFalse, _, _⟩
        · have shorter := advances.reads.upcoming_lt (List.cons_ne_nil _ _)
          have noLonger := proceeds.upcoming_le
          rw [List.length_cons] at within
          exact ih next (proceedsAccept.above above) (readyBehind.next proceedsAccept) (by omega)
            (by omega)
        · cases isFalse

theorem separated
    (each : ∀ value, Shadows text levels known.moved mode caller (getItem value) (item value))
    (value : α)
    (enough : (tokens text).length < rounds) :
    Shadows text levels known mode caller (.separated getItem rounds value)
      (Compile.separated item value) :=
  fun _ compiler initializes above ready =>
    separatedWithin each compiler.upcoming value initializes above (ready.next ready.refl)
      (Nat.le_refl _) (Nat.lt_trans ready.upcoming_lt enough)

theorem function (last : known.last = some .identifier)
    (before : known.before = some (.keyword .funKw))
    (inside : Shadows text levels .nothing .free caller observed
      (parametersAndBody (.level levels))) :
    Shadows text levels known .settled caller
      (do
        Observed.step beginFunction
        observed
        Observed.step emitReturn
        Observed.step (do emitConstant (.function (← endFunction)) : Compile Unit))
      (do
        beginFunction
        parametersAndBody (.level levels)
        emitReturn
        emitConstant (.function (← endFunction))) := by
  intro outer compiler _ above ready
  have readyBegun := ready.begun
  have initializes : caller.Initializes .free outer := nofun
  have begins : beginFunction compiler = .ok () compiler.begun := rfl
  rw [bind_of_ok begins]
  apply Run.Shows.stepThen ready.defined begins
  apply (inside outer compiler.begun initializes above readyBegun).bindFrom
    (show compiler.begun.nesting = compiler.nesting from rfl)
  intro _ done ranBody proceeds
  have readyDone := readyBegun.next proceeds
  apply (step .emitReturn outer done initializes (proceeds.above above) readyDone).bindFrom
    (show done.nesting = compiler.nesting from proceeds.nesting_eq)
  intro _ returned returns proceedsReturn
  exact .step (readyDone.next proceedsReturn).defined
    (Concluding.endFunction ready last before ranBody returns (proceeds.trans proceedsReturn id))

theorem declaring (whole : caller.isPart = false) (expectation : Expectation)
    (inside : Shadows text levels known.moved .pending caller observed body) :
    Shadows text levels known .free caller
      (do
        let binding ← Observed.step (declare expectation)
        observed
        Observed.step (define binding))
      (do
        let binding ← declare expectation
        body
        define binding) := by
  intro outer compiler _ above ready
  have declares := Concluding.declare expectation ready
  refine (Run.Shows.step ready.defined declares).bind nofun fun binding declared ran proceeds => ?_
  have readyDeclared : declared.Ready text known.moved .pending := ready.into proceeds nofun
  have initializes : caller.Initializes .pending outer := fun _ part => by
    rw [whole] at part
    cases part
  refine (inside outer declared initializes (proceeds.above above) readyDeclared).bind nofun
    fun _ done _ onward => ?_
  have readyDone := readyDeclared.next onward
  have isDeclared := (Binding.Declared.of_declare ran).of_sameFrame (onward.draft.frame rfl)
  exact .step readyDone.defined (Concluding.define readyDone isDeclared)

theorem declaringVisibly (expectation : Expectation)
    (inside : Shadows text levels known.named .settled caller observed body) :
    Shadows text levels known .free caller
      (do
        let binding ← Observed.step (declare expectation)
        Observed.step (makeVisible binding)
        observed
        Observed.step (define binding))
      (do
        let binding ← declare expectation
        makeVisible binding
        body
        define binding) := by
  intro outer compiler _ above ready
  have declares := Concluding.declare expectation ready
  refine (Run.Shows.step ready.defined declares).bind nofun fun binding declared ran proceeds => ?_
  have readyDeclared : declared.Ready text known.moved .pending := ready.into proceeds nofun
  have isDeclared := Binding.Declared.of_declare ran
  have shows := Concluding.makeVisible readyDeclared isDeclared
  refine (Run.Shows.step readyDeclared.defined shows).bind nofun
    fun _ visible ranVisible onward => ?_
  have isVisible := isDeclared.makeVisible ranVisible
  have readyVisible : visible.Ready text known.named .settled :=
    ready.named ran ((Quiet.makeVisible binding).samePlace ranVisible)
      (readyDeclared.into onward fun _ => onward.draft.closed rfl)
  have above := onward.above (proceeds.above above)
  refine (inside outer visible nofun above readyVisible).bind nofun fun _ done _ further => ?_
  have readyDone := readyVisible.next further
  exact .step readyDone.defined
    (Concluding.define readyDone (isVisible.of_sameFrame (further.draft.frame rfl)))

end Observed.Shadows

theorem Procedure.rank_le (procedure : Procedure) : procedure.rank ≤ 5 := by
  cases procedure <;> simp [rank]

theorem Procedure.upcoming_lt_of_declaration (ends : compiler.Ends)
    (ran : Compile.declaration (.level levels) compiler = .ok () after) :
    after.upcoming.length < compiler.upcoming.length := by
  rcases declaration_read (Parser.level_sound levels) ends ran
    with ⟨tokens, _, reads, ⟨_, derives⟩, _⟩
  exact reads.upcoming_lt derives.declaration_ne_nil

theorem Compile.Built.shadows {rounds depth : Nat} {action : Compile α}
    (built : Built caller levels known mode action) (enough : (tokens text).length < rounds)
    (deep : 6 * levels + caller.rank ≤ depth) :
    Observed.Shadows text levels known mode caller (built.observe rounds depth) action := by
  induction built generalizing depth with
  | pure value => exact .step (.pure value)
  | bind _ _ first second => exact .bind (first deep) fun value => second value deep
  | recast same _ shadowed => exact same ▸ shadowed deep
  | refuse listed =>
    apply Observed.Shadows.step (.fail _)
    simp only [refusals, List.mem_cons, List.not_mem_nil, or_false] at listed
    rcases listed with rfl | rfl | rfl <;> rfl
  | miss expectation => exact .step (.failAhead rfl)
  | tooDeep => exact .step (.failAhead rfl)
  | lookahead => exact .step .lookahead
  | advance => exact .step .advance
  | read _ rest => exact .read fun kind => rest kind deep
  | call inner isBelow may fits _ inside =>
    have lower : inner.rank < _ := of_decide_eq_true isBelow
    cases depth with
    | zero => omega
    | succ depth =>
      apply Observed.Shadows.perform may fits (fun _ _ => rfl)
      · exact fun _ _ ready tidy =>
          ⟨ready.shallow, lower, Procedure.suits_of_fits ready fits, tidy⟩
      · exact inside (by omega)
  | enter inner may fits _ inside =>
    cases depth with
    | zero => omega
    | succ depth =>
      apply Observed.Shadows.nested
      apply Observed.Shadows.perform may fits (fun _ _ => rfl)
      · exact fun _ _ ready tidy => ⟨ready.shallow, tidy⟩
      · exact inside (by have := inner.rank_le; omega)
  | repeatReading stays _ _ asks does =>
    have rest kind := does kind deep
    refine .repeatWhile (asks deep) (.read rest) stays ?_ enough
    intro compiler after above ready more ran
    rcases bind_eq_ok.mp ran with ⟨kind, same, ranLook, ran⟩
    rcases lookahead_eq_ok.mp ranLook with ⟨rfl, rfl⟩
    rcases bind_eq_ok.mp ran with ⟨_, behind, ranAdvance, ranRest⟩
    have advances := advance_advances ranAdvance ready.ends more
    have proceeds := Concluding.advance compiler ready
    rw [ranAdvance] at proceeds
    have shown := rest _ [.variableDeclaration] behind (fun _ _ => .inl rfl)
      (proceeds.nesting_eq ▸ above) (ready.read ranAdvance)
    rw [ranRest] at shown
    exact Nat.lt_of_le_of_lt shown.proceeds.upcoming_le
      (advances.reads.upcoming_lt (List.cons_ne_nil _ _))
  | repeatDeclaring stays _ _ asks does =>
    refine .repeatWhile (asks deep) (does deep) stays ?_ enough
    exact fun _ _ _ ready _ => Procedure.upcoming_lt_of_declaration ready.ends
  | separated _ state each => exact .separated (fun state => each state deep) state enough
  | emit bare => exact .step (.emit bare)
  | apply count => exact .step (.emitWith rfl _)
  | jump forward _ rest =>
    intro outer compiler initializes above ready
    have wide := wide_of_forward forward
    apply (Observed.Shadows.step (.emitJump wide) outer compiler initializes above ready).bind id
    intro jump after ran proceeds
    refine rest jump deep outer after initializes (proceeds.above above)
      { ready.next proceeds with jumps := ?_ }
    refine List.forall_mem_cons.mpr ⟨?_, (ready.next proceeds).jumps⟩
    rw [emitJump_apply wide] at ran
    cases ran
    refine ⟨by simp [Compiler.onDraft, Draft.write, Opcode.size, wide], fun other left => .inr ?_⟩
    exact Nat.succ_le_succ (ready.draft.inside left)
  | patch written => exact .step (.patchJump written)
  | mark _ rest =>
    intro outer compiler initializes above ready
    apply (Observed.Shadows.step .codeSize outer compiler initializes above ready).bind id
    intro size same ran proceeds
    rcases codeSize_eq_ok.mp ran with ⟨rfl, rfl⟩
    refine rest _ deep outer compiler initializes above { ready.next proceeds with marks := ?_ }
    exact List.forall_mem_cons.mpr ⟨⟨Nat.le_refl _, .inl rfl⟩, ready.marks⟩
  | loop marked => exact .step (.emitLoop marked)
  | number last => exact .step (.number last)
  | string _ => exact .step .string
  | scope kind _ inside =>
    apply Observed.Shadows.bind (.step (.openScope kind))
    intro _
    exact .bind (inside deep) fun _ => .step .closeScope
  | loopStart marked =>
    apply Observed.Shadows.step
    exact fun _ ready => ready.withDraft
      (ready.draft.setLoopStart (ready.closed rfl) (ready.marks _ marked)) .refl
  | leave => exact .step .breakStatement
  | again => exact .step .continueStatement
  | use _ _ assignable value =>
    apply Observed.Shadows.bind (.step .lastLexeme)
    intro name
    apply Observed.Shadows.bind (.step (.resolve name))
    intro reference
    apply Observed.Shadows.bind (.step .lookahead)
    intro kind
    split
    · apply Observed.Shadows.bind (.step .advance)
      intro _
      exact .bind (value deep) fun _ => .step (.emitSet reference)
    · exact .step (.emitGet reference)
  | declaring whole expectation _ inside => exact .declaring whole expectation (inside deep)
  | declaringVisibly expectation _ inside => exact .declaringVisibly expectation (inside deep)
  | function last before _ inside => exact .function last before (inside deep)
  | count _ rest =>
    intro outer compiler initializes above ready
    refine .stepThen ready.defined (get_eq_ok.mpr ⟨rfl, rfl⟩) ?_
    rw [get_bind]
    split
    · exact Observed.Shadows.step (.failAhead rfl) outer compiler initializes above ready
    · have proceeds := ready.withDraft (ready.draft.count (ready.closed rfl)) .refl
      have counted := { ready with draft := proceeds.draft.tidy, dated := proceeds.onward.dated }
      exact .stepThen ready.defined rfl
        ((rest deep outer _ initializes (proceeds.above above) counted).since proceeds id)
  | inFunction _ rest =>
    intro outer compiler initializes above ready
    refine .stepThen ready.defined (get_eq_ok.mpr ⟨rfl, rfl⟩) ?_
    rw [get_bind]
    cases compiler.draft.kind with
    | script => exact Observed.Shadows.step (.fail rfl) outer compiler initializes above ready
    | function => exact rest deep outer compiler initializes above ready

end Rules

/-! ## The whole text -/

section Whole

variable {text : String} {rounds depth : Nat}

/-- How deep calls of the compiler go. -/
def callDepth : Nat :=
  6 * (maxNesting + 1) + Procedure.program.rank

theorem Compile.maxNesting_lt {nesting : Nat} : maxNesting < maxNesting + 1 + nesting :=
  Nat.lt_add_right nesting (Nat.lt_succ_self _)

theorem Compiler.shift_ofText (text : String) :
    (ofText text).shift.stream = tokens text ∧ (ofText text).shift.previous = .unread ∧
      (ofText text).shift.draft = .script ∧ (ofText text).shift.enclosing = [] ∧
      (ofText text).shift.nesting = 0 := by
  rcases tokens_end text with ⟨front, ending, tokensEq, _, _⟩
  unfold shift
  split
  · next nothing =>
    have empty : tokens text = [] := nothing
    simp [empty] at tokensEq
  · next first rest all =>
    exact ⟨all.symm, rfl, rfl, rfl, rfl⟩

theorem Compiler.shift_ofText_proceeds (text : String) :
    (ofText text).Proceeds text .free (ofText text).shift := by
  rcases shift_ofText text with ⟨streamEq, previousEq, draftEq, enclosingEq, nestingEq⟩
  exact {
    reads := ⟨[.unread], by rw [streamEq]; rfl, enclosingEq⟩
    draft := draftEq ▸ Draft.Tidy.refl (.blank _ _ _) fun _ => .bottom ""
    nesting_eq := nestingEq
    onward.dated.stream := streamEq ▸ List.suffix_refl _
    onward.dated.behind := .inl (streamEq ▸ previousEq ▸ List.suffix_refl _)
    onward.dated.functions := draftEq ▸ fun _ present => absurd present (Array.not_mem_empty _)
    onward.later := previousEq ▸ Nat.le_refl _
    onward.added := ⟨[], by rw [draftEq, List.append_nil]; rfl, .nil⟩ }

theorem Compiler.shift_ofText_ready (text : String) :
    (ofText text).shift.Ready text .nothing .free where
  dated := (shift_ofText_proceeds text).onward.dated
  draft := (shift_ofText_proceeds text).draft.tidy
  closed := (shift_ofText_proceeds text).draft.closed
  around := (shift_ofText text).2.2.2.1 ▸ List.forall_mem_nil _
  shallow := (shift_ofText text).2.2.2.2 ▸ Nat.zero_le _
  jumps := by simp [Known.nothing]
  marks := by simp [Known.nothing]
  last := by simp [Known.nothing]
  before := by simp [Known.nothing]

theorem observe_shows (enough : (tokens text).length < rounds) (deep : callDepth ≤ depth) :
    (observe rounds depth text).Shows text [.program] .free (.ofText text)
      (program (.ofText text)) := by
  have defined : (Compiler.ofText text).Defined text :=
    Compiler.defined_of_mem (by simp [Compiler.ofText, Compiler.ofTokens, Compiler.stream])
      (Draft.Tidy.blank _ "" _).few
  have proceeds := Compiler.shift_ofText_proceeds text
  apply (Run.Shows.step defined (concludes_advance proceeds)).bind id
  intro _ first ran _
  rw [advance_eq_ok ran]
  exact Observed.Shadows.bind (Built.program.shadows enough deep) (fun _ => .step .finish) [] _
    (by rintro ⟨⟩) maxNesting_lt (Compiler.shift_ofText_ready text)

/-- No text makes the compiler fail for a reason that does not lie in the text. -/
theorem isDefect_of_compile {error : CompileError} (failed : compile text = .error error) :
    error.kind.isDefect = false := by
  have concluded : (Compiler.ofText text).Concludes text .free
      (program (.ofTokens (tokens text))) :=
    (observe_shows (Nat.lt_succ_self _) (Nat.le_refl _)).concludes
  rw [compile, compileTokens] at failed
  cases ran : program (.ofTokens (tokens text)) with
  | ok script after =>
    rw [ran] at failed
    cases failed
  | error error after =>
    rw [ran] at failed concluded
    cases failed
    exact concluded.2

end Whole

end StackScript
