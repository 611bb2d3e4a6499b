import StackScript.Proofs.Bookkeeping
import StackScript.Proofs.Climbing
import StackScript.Proofs.Rounds

/-!
# Compilers side by side

Two texts that begin in the same way are compiled side by side. As long as the first compiler sees
nothing but this beginning, both do the same. The few actions that the compiler is put together from
are `Blind` to what comes later, and so all that is built from them is.
-/

namespace StackScript

open Compile

/-- By what two texts are compared. -/
structure Comparison where
  view : Resemblance
  related : Token → Token → Prop
  kind_eq : ∀ {token other : Token}, related token other → other.kind = token.kind
  line : ∀ {token other : Token}, related token other → view.lines token.line other.line
  name : ∀ {token other : Token}, related token other → token.kind = .identifier →
    other.lexeme = view.rename token.lexeme
  literal : ∀ {token other : Token}, related token other → token.kind ≠ .identifier →
    other.lexeme = token.lexeme
  /-- The books of a function tell its names from its other constants where it ends. -/
  finished : ∀ {left right : Draft} {operations : List Operation}, view.draft left right →
    left.Kept operations [] → view.function left.function right.function
  /-- What is known of the tokens ahead of the first compiler and of the one that it read last. -/
  holds : List Token → Token → Prop
  moves : ∀ {current ahead previous : Token} {rest : List Token},
    holds (current :: ahead :: rest) previous → ahead.Readable → holds (ahead :: rest) current
  stays : ∀ {current previous : Token}, holds [current] previous → holds [current] current
  rest : List Token
  others : List Token

namespace Compiler

variable {left right after after' : Compiler} {comparison : Comparison}

/-- Whether two compilers stand at the same place of the common beginning, with the same code. -/
structure Alongside (comparison : Comparison) (left right : Compiler) : Prop where
  ahead : ∃ front front', left.upcoming = front ++ comparison.rest ∧
    right.upcoming = front' ++ comparison.others ∧ front.Forall₂ comparison.related front'
  current : comparison.related left.current right.current
  previous : comparison.related left.previous right.previous
  nesting_eq : left.nesting = right.nesting
  like : left.Like comparison.view right
  holds : comparison.holds left.stream left.previous
  bounds : left.upcoming.length = right.upcoming.length ∨ left.Ends ∧ right.Ends

namespace Alongside

theorem upcoming_eq_nil (alongside : left.Alongside comparison right)
    (none : left.upcoming = []) : right.upcoming = [] := by
  rcases alongside.bounds with lengthEq | ⟨ends, ends'⟩
  · rw [none] at lengthEq
    exact List.length_eq_zero_iff.mp lengthEq.symm
  · rw [← ends'.atEnd_iff, comparison.kind_eq alongside.current, ends.atEnd_iff]
    exact none

theorem stay (alongside : left.Alongside comparison right) (stays : left.Passes [] after)
    (stays' : right.Passes [] after') (like : after.Like comparison.view after') :
    after.Alongside comparison after' := by
  have streamEq : left.stream = after.stream := stays.stream_eq
  have streamEq' : right.stream = after'.stream := stays'.stream_eq
  rcases List.cons.inj streamEq with ⟨currentEq, upcomingEq⟩
  rcases List.cons.inj streamEq' with ⟨currentEq', upcomingEq'⟩
  have previousEq : after.previous = left.previous := stays.previous_eq
  have previousEq' : after'.previous = right.previous := stays'.previous_eq
  refine ⟨?_, ?_, ?_, ?_, like, ?_, ?_⟩
  · rw [← upcomingEq, ← upcomingEq']
    exact alongside.ahead
  · rw [← currentEq, ← currentEq']
    exact alongside.current
  · rw [previousEq, previousEq']
    exact alongside.previous
  · rw [stays.nesting_eq, stays'.nesting_eq]
    exact alongside.nesting_eq
  · rw [← streamEq, previousEq]
    exact alongside.holds
  · rw [Ends, Ends, ← streamEq, ← streamEq', ← upcomingEq, ← upcomingEq']
    exact alongside.bounds

/-- Reading keeps to what is the same, unless what stands behind it comes in sight. -/
theorem shift (alongside : left.Alongside comparison right) :
    left.shift.upcoming.length < comparison.rest.length ∨
      comparison.related left.shift.current right.shift.current ∧
        (left.shift.current.Readable → left.shift.Alongside comparison right.shift) := by
  have line := comparison.line alongside.current
  have like := alongside.like
  by_cases none : left.upcoming = []
  · have holds := alongside.holds
    rw [stream, none] at holds
    rw [shift_of_nil none, shift_of_nil (alongside.upcoming_eq_nil none)]
    refine .inr ⟨alongside.current, fun _ => { alongside with
      previous := alongside.current
      like := { like with line }
      holds := ?_ }⟩
    rw [stream, none]
    exact comparison.stays holds
  · rcases alongside.ahead with ⟨front, front', aheadEq, aheadEq', related⟩
    cases related with
    | nil =>
      rcases List.exists_cons_of_ne_nil none with ⟨token, rest, ahead⟩
      rw [List.nil_append] at aheadEq
      rw [← aheadEq, shift_of_cons ahead, ahead]
      exact .inl (Nat.lt_succ_self _)
    | cons same rest =>
      have holds := alongside.holds
      rw [stream, aheadEq] at holds
      have bounds : left.shift.upcoming.length = right.shift.upcoming.length ∨
          left.shift.Ends ∧ right.shift.Ends := by
        refine alongside.bounds.imp (fun lengthEq => ?_) fun ends =>
          ⟨ends.1.of_suffix left.shift_suffix, ends.2.of_suffix right.shift_suffix⟩
        rw [aheadEq, aheadEq'] at lengthEq
        rw [shift_of_cons aheadEq, shift_of_cons aheadEq']
        exact Nat.succ.inj lengthEq
      rw [shift_of_cons aheadEq, shift_of_cons aheadEq'] at bounds ⊢
      exact .inr ⟨same, fun readable => ⟨⟨_, _, rfl, rfl, rest⟩, same, alongside.current,
        alongside.nesting_eq, { like with line }, comparison.moves holds readable, bounds⟩⟩

end Alongside

end Compiler

/-- Whether an error blames a token that the first compiler has in sight. -/
inductive Comparison.Blames (comparison : Comparison) (after : Compiler) (token : Token) :
    CompileError.Kind → Prop where
  | seen {kind : CompileError.Kind} (among : token = after.current ∨ token = after.previous)
      (regular : kind.isUnreadable = false)
      (holds : comparison.holds after.stream after.previous) : Blames comparison after token kind
  | unreadable {before : Compiler} {reason : ScanError}
      (holds : comparison.holds before.stream before.previous) (here : token = after.current)
      (stream_eq : after.stream = before.shift.stream) (isError : token.kind = .error reason) :
      Blames comparison after token (.unreadable reason)

namespace Compile

variable {α β γ δ : Type} {comparison : Comparison} {left right : Compiler}
  {last : Option Token.Kind}

/-- Two runs do the same, unless the first one sees more than the texts have in common. -/
inductive Compared (comparison : Comparison) (same : α → β → Prop) :
    EStateM.Result CompileError Compiler α → EStateM.Result CompileError Compiler β → Prop where
  | ok {value : α} {other : β} {after after' : Compiler} (related : same value other)
      (alongside : after.Alongside comparison after') :
      Compared comparison same (.ok value after) (.ok other after')
  | error {token token' : Token} {kind : CompileError.Kind} {after after' : Compiler}
      (related : comparison.related token token') (blames : comparison.Blames after token kind) :
      Compared comparison same (.error (.atToken token kind) after)
        (.error (.atToken token' (kind.renamed comparison.view.rename)) after')
  | beyond {result : EStateM.Result CompileError Compiler α}
      {result' : EStateM.Result CompileError Compiler β}
      (further : (reached result).upcoming.length < comparison.rest.length) :
      Compared comparison same result result'

namespace Compared

variable {same : α → β → Prop}

theorem bind {same' : γ → δ → Prop} {action : Compile α} {other : Compile β} {next : α → Compile γ}
    {onward : β → Compile δ} (first : Compared comparison same (action left) (other right))
    (leads : ∀ value, Onward (next value))
    (second : ∀ value value' after after', action left = .ok value after → same value value' →
      after.Alongside comparison after' →
      Compared comparison same' (next value after) (onward value' after')) :
    Compared comparison same' ((action >>= next) left) ((other >>= onward) right) := by
  rw [bind_apply, bind_apply]
  generalize ran : action left = result at first
  generalize other right = result' at first
  cases first with
  | ok related alongside => exact second _ _ _ _ ran related alongside
  | error related blames => exact .error related blames
  | beyond further =>
    apply Compared.beyond
    cases result with
    | ok value after =>
      exact Nat.lt_of_le_of_lt (Compiler.upcoming_le_of_suffix (leads value after)) further
    | error error after => exact further

theorem ofPaired {result : EStateM.Result CompileError Compiler α}
    {result' : EStateM.Result CompileError Compiler β}
    (paired : Paired comparison.view same left right result result')
    (alongside : left.Alongside comparison right) : Compared comparison same result result' := by
  cases paired with
  | ok related stays stays' like => exact .ok related (alongside.stay stays stays' like)
  | error regular stays stays' =>
    have holds := alongside.holds
    rw [stays.stream_eq, show left.previous = _ from stays.previous_eq.symm] at holds
    exact .error alongside.previous (.seen (.inr stays.previous_eq.symm) regular holds)

end Compared

/--
Whether an action, behind a token of the kind `last`, does not see what comes later, nor in what
related tokens differ.
-/
structure Blind (comparison : Comparison) (last : Option Token.Kind) (action : Compile α) :
    Prop where
  onward : Onward action
  compared : ∀ {left right : Compiler}, left.Alongside comparison right →
    (∀ kind ∈ last, left.previous.kind = kind) →
    Compared comparison Eq (action left) (action right)

namespace Blind

variable {action : Compile α} {next : α → Compile β} {body round : Compile Unit}
  {expectation : Expectation} {item : α → Compile α} {kind : Token.Kind} {more : Compile Bool}

theorem anywhere (blind : Blind comparison none action) : Blind comparison last action :=
  ⟨blind.onward, fun alongside _ => blind.compared alongside (by simp)⟩

theorem bind (first : Blind comparison last action)
    (second : ∀ value, Blind comparison none (next value)) :
    Blind comparison last (action >>= next) where
  onward := .bind first.onward fun value => (second value).onward
  compared := by
    intro left right alongside isLast
    apply (first.compared alongside isLast).bind fun value => (second value).onward
    rintro value _ after after' _ rfl alongsideAfter
    exact (second value).compared alongsideAfter (by simp)

theorem compared_of_paired {other : Compile α}
    (paired : Paired comparison.view Eq left right (action left) (other right))
    (second : ∀ value, Blind comparison last (next value))
    (alongside : left.Alongside comparison right)
    (isLast : ∀ kind ∈ last, left.previous.kind = kind) :
    Compared comparison Eq ((action >>= next) left) ((other >>= next) right) := by
  rw [bind_apply, bind_apply]
  generalize action left = result at paired
  generalize other right = result' at paired
  cases paired with
  | error regular stays stays' => exact .ofPaired (.error regular stays stays') alongside
  | ok related stays stays' like =>
    cases related
    apply (second _).compared (alongside.stay stays stays' like)
    rw [stays.previous_eq]
    exact isLast

theorem ofUniform (uniform : ∀ {view : Resemblance}, Uniform view action) :
    Blind comparison last action where
  onward := .ofUniform uniform
  compared alongside _ := .ofPaired (uniform _ _ alongside.like) alongside

theorem writing (uniform : ∀ {view : Resemblance}, Uniform view action)
    (second : ∀ value, Blind comparison last (next value)) :
    Blind comparison last (action >>= next) where
  onward := .bind (.ofUniform uniform) fun value => (second value).onward
  compared alongside := compared_of_paired (uniform _ _ alongside.like) second alongside

theorem pure (value : α) : Blind comparison last (pure value : Compile α) :=
  ofUniform (.pure value)

theorem failAhead {kind : CompileError.Kind} (nameless : ∀ rename, kind.renamed rename = kind)
    (regular : kind.isUnreadable = false) :
    Blind comparison last (failAhead kind : Compile α) where
  onward _ := List.suffix_refl _
  compared := by
    intro left right alongside _
    have failed : Compared comparison (Eq : α → α → Prop) (.error (.atToken left.current kind) left)
        (.error (.atToken right.current (kind.renamed comparison.view.rename)) right) :=
      .error alongside.current (.seen (.inl rfl) regular alongside.holds)
    rw [nameless] at failed
    exact failed

theorem inspect {action : Compiler → Compile α}
    (each : ∀ compiler, Blind comparison last (action compiler))
    (same : ∀ left right : Compiler, left.draft.Parallel comparison.view.rename right.draft →
      action right = action left) :
    Blind comparison last (get >>= action) where
  onward compiler := (each compiler).onward compiler
  compared := by
    intro left right alongside isLast
    rw [get_bind, get_bind, same left right alongside.like.parallel]
    exact (each left).compared alongside isLast

/-! ## Reading -/

theorem advance : Blind comparison last advance where
  onward := .advance
  compared := by
    intro left right alongside _
    simp only [Compile.advance]
    rcases alongside.shift with further | ⟨related, moved⟩
    · apply Compared.beyond
      split
      · exact further
      · exact further
    · rw [comparison.kind_eq related]
      split
      · next reason isError => exact .error related (.unreadable alongside.holds rfl rfl isError)
      · next readable => exact .ok rfl (moved readable)

theorem lookahead : Blind comparison last lookahead where
  onward _ := List.suffix_refl _
  compared alongside _ := .ok (comparison.kind_eq alongside.current).symm alongside

theorem accept (kind : Token.Kind) : Blind comparison last (accept kind) := by
  apply bind lookahead
  intro found
  split
  · exact bind advance fun _ => pure true
  · exact pure false

theorem expect (kind : Token.Kind) (expectation : Expectation) :
    Blind comparison last (expect kind expectation) := by
  apply bind lookahead
  intro found
  split
  · exact advance
  · exact failAhead (fun _ => rfl) rfl

theorem expecting {next : Compile α} (rest : Blind comparison (some kind) next) :
    Blind comparison last (Compile.expect kind expectation >>= fun _ => next) := by
  have expects : Blind comparison last (Compile.expect kind expectation) := expect kind expectation
  refine ⟨.bind expects.onward fun _ => rest.onward, fun alongside isLast => ?_⟩
  apply (expects.compared alongside isLast).bind fun _ => rest.onward
  intro _ _ after after' ran _ alongsideAfter
  apply rest.compared alongsideAfter
  rintro _ ⟨⟩
  exact previous_of_expect ran

theorem read {next : Token.Kind → Compile α}
    (rest : ∀ kind, Blind comparison (some kind) (next kind)) :
    Blind comparison last (do
      let kind ← Compile.lookahead
      Compile.advance
      next kind) where
  onward := .bind (fun _ => List.suffix_refl _) fun kind =>
    .bind .advance fun _ => (rest kind).onward
  compared := by
    intro left right alongside isLast
    rw [bind_of_ok (show Compile.lookahead left = .ok _ left from rfl),
      bind_of_ok (show Compile.lookahead right = .ok _ right from rfl),
      comparison.kind_eq alongside.current]
    apply (advance.compared alongside isLast).bind fun _ => (rest _).onward
    intro _ _ after after' ran _ alongsideAfter
    apply (rest _).compared alongsideAfter
    rintro _ ⟨⟩
    rw [previous_of_advance ran]

theorem named {action : String → Compile α}
    (paired : ∀ {view : Resemblance} {left right : Compiler} (name : String),
      left.Like view right →
      Paired view Eq left right (action name left) (action (view.rename name) right))
    (second : ∀ value, Blind comparison (some .identifier) (next value)) :
    Blind comparison (some .identifier) ((lastLexeme >>= action) >>= next) where
  onward := .bind (.bind (fun _ => List.suffix_refl _) fun name =>
    .ofPaired fun compiler => paired name (.refl compiler)) fun value => (second value).onward
  compared := by
    intro left right alongside isLast
    have named := paired left.previous.lexeme alongside.like
    rw [← comparison.name alongside.previous (isLast _ rfl)] at named
    exact compared_of_paired named second alongside isLast

theorem literal {action : String → Compile α} (other : kind ≠ .identifier)
    (each : ∀ lexeme, Blind comparison none (action lexeme)) :
    Blind comparison (some kind) (lastLexeme >>= action) where
  onward := .bind (fun _ => List.suffix_refl _) fun lexeme => (each lexeme).onward
  compared := by
    intro left right alongside isLast
    rw [bind_of_ok (show lastLexeme left = .ok _ left from rfl),
      bind_of_ok (show lastLexeme right = .ok _ right from rfl),
      comparison.literal alongside.previous (isLast _ rfl ▸ other)]
    exact (each _).compared alongside (by simp)

theorem nested (blind : Blind comparison last body) : Blind comparison last (nested body) where
  onward := .nested blind.onward
  compared := by
    intro left right alongside isLast
    have deeper : Compiler.Alongside comparison { left with nesting := left.nesting + 1 }
        { right with nesting := right.nesting + 1 } := { alongside with
      nesting_eq := congrArg (· + 1) alongside.nesting_eq
      like := { alongside.like with } }
    have inside := blind.compared deeper isLast
    rw [Compile.nested, Compile.nested, ← alongside.nesting_eq]
    rw [← alongside.nesting_eq] at inside
    split
    · generalize body { left with nesting := left.nesting + 1 } = result at inside
      generalize body { right with nesting := left.nesting + 1 } = result' at inside
      cases inside with
      | ok related after =>
        exact .ok rfl { after with
          nesting_eq := congrArg (· - 1) after.nesting_eq
          like := { after.like with } }
      | error related blames =>
        refine .error related ?_
        cases blames with
        | seen among regular holds => exact .seen among regular holds
        | unreadable holds here streamEq isError => exact .unreadable holds here streamEq isError
      | beyond further =>
        apply Compared.beyond
        cases result with
        | ok value after => exact further
        | error error after => exact further
    · exact (failAhead (fun _ => rfl) rfl).compared alongside isLast

theorem repeatWithin (asks : Blind comparison none more) (does : Blind comparison none round)
    (bound : List Token) : Blind comparison none (repeatWithin more round bound) := by
  induction bound with
  | nil => exact bind asks fun _ => pure ()
  | cons _ bound ih =>
    apply bind asks
    intro goesOn
    split
    · exact bind does fun _ => ih
    · exact pure ()

theorem repeatWhile (stays : StaysInText more) (reads : Reading round)
    (asks : Blind comparison none more) (does : Blind comparison none round) :
    Blind comparison last (repeatWhile more round) where
  onward compiler := (repeatWithin asks does compiler.upcoming).onward compiler
  compared := by
    intro left right alongside _
    change Compared comparison Eq (Compile.repeatWithin more round left.upcoming left)
      (Compile.repeatWithin more round right.upcoming right)
    rcases alongside.bounds with lengthEq | ⟨ends, ends'⟩
    · rw [repeatWithin_congr more round lengthEq]
      exact (repeatWithin asks does _).compared alongside (by simp)
    · rw [repeatWithin_enough stays does.onward reads ends (Nat.le_refl _)
          (List.length_append ▸ Nat.le_add_right _ right.upcoming.length),
        repeatWithin_enough stays does.onward reads ends' (Nat.le_refl _)
          (List.length_append ▸ Nat.le_add_left _ left.upcoming.length)]
      exact (repeatWithin asks does _).compared alongside (by simp)

theorem separatedWithin (each : ∀ state, Blind comparison none (item state)) (bound : List Token)
    (state : α) : Blind comparison none (separatedWithin item bound state) := by
  induction bound generalizing state with
  | nil => exact each state
  | cons _ bound ih =>
    apply bind (each state)
    intro reached
    apply bind (accept .comma)
    intro goesOn
    split
    · exact ih reached
    · exact pure reached

theorem separated (each : ∀ state, Blind comparison none (item state)) (state : α) :
    Blind comparison last (separated item state) where
  onward compiler := (separatedWithin each compiler.upcoming state).onward compiler
  compared := by
    intro left right alongside _
    have onward := fun state => (each state).onward
    change Compared comparison Eq (Compile.separatedWithin item left.upcoming state left)
      (Compile.separatedWithin item right.upcoming state right)
    rcases alongside.bounds with lengthEq | ⟨ends, ends'⟩
    · rw [separatedWithin_congr state lengthEq]
      exact (separatedWithin each _ state).compared alongside (by simp)
    · rw [separatedWithin_enough onward ends (Nat.le_refl _)
          (List.length_append ▸ Nat.le_add_right _ right.upcoming.length),
        separatedWithin_enough onward ends' (Nat.le_refl _)
          (List.length_append ▸ Nat.le_add_left _ left.upcoming.length)]
      exact (separatedWithin each _ state).compared alongside (by simp)

/-! ## Names and functions -/

theorem declaring {next : Binding → Compile α}
    (rest : ∀ binding, Blind comparison (some .identifier) (next binding)) :
    Blind comparison last (declare expectation >>= next) := by
  rw [declare_eq, bind_assoc]
  exact expecting (named (fun name => Uniform.declareAs_paired name) rest)

theorem variableUse {inner : Parser} (value : Blind comparison none inner.expression)
    (assignable : Bool) : Blind comparison (some .identifier) (variableUse inner assignable) := by
  rw [Compile.variableUse, ← bind_assoc]
  apply named fun name => Uniform.resolve_paired name
  intro reference
  apply bind lookahead
  intro kind
  split
  · apply bind advance
    intro _
    exact bind value fun _ => ofUniform (.emitSet reference)
  · exact ofUniform (.emitGet reference)

theorem breakStatement : Blind comparison last breakStatement := by
  apply inspect
  · intro compiler
    cases Scope.innermostLoop? compiler.draft.scopes with
    | none => exact ofUniform (.fail rfl rfl)
    | some loop => exact bind (expect _ _) fun _ => ofUniform (.leave loop)
  · intro left right parallel
    rw [parallel.scopes_eq]

theorem continueStatement : Blind comparison last continueStatement := by
  apply inspect
  · intro compiler
    cases Scope.innermostLoop? compiler.draft.scopes with
    | none => exact ofUniform (.fail rfl rfl)
    | some loop => exact bind (expect _ _) fun _ => ofUniform (.again loop)
  · intro left right parallel
    rw [parallel.scopes_eq]

theorem function (keeps : KeepsAll [] body) (inside : Blind comparison none body) :
    Blind comparison (some .identifier) (do
      beginFunction
      body
      emitReturn
      emitConstant (.function (← endFunction))) := by
  have ends : ∀ {view : Resemblance} {left right : Compiler}, left.Like view right →
      view.function left.draft.function right.draft.function →
      Paired view Eq left right
        ((endFunction >>= fun function => emitConstant (.function function)) left)
        ((endFunction >>= fun function => emitConstant (.function function)) right) := by
    intro view left right like finished
    apply Paired.bind (Uniform.endFunction_paired like finished)
    intro function other after after' same likeAfter
    exact Uniform.emitConstant_paired (.function same) likeAfter
  have begins : Blind comparison (some .identifier) beginFunction :=
    bind_pure beginFunction ▸ named (fun name => Uniform.beginFunctionAs_paired name) .pure
  have returns : Blind comparison none emitReturn := ofUniform .emitReturn
  have afterEnd : Onward (endFunction >>= fun function =>
      emitConstant (.function function)) :=
    .ofPaired fun compiler => ends (.refl compiler) rfl
  have afterBody : Onward (emitReturn >>= fun _ => endFunction >>= fun function =>
      emitConstant (.function function)) := .bind returns.onward fun _ => afterEnd
  refine ⟨.bind begins.onward fun _ => .bind inside.onward fun _ => afterBody, ?_⟩
  intro left right alongside isLast
  apply (begins.compared alongside isLast).bind fun _ => .bind inside.onward fun _ => afterBody
  intro _ _ begun begun' ranBegin _ alongsideBegun
  apply (inside.compared alongsideBegun (by simp)).bind fun _ => afterBody
  intro _ _ done done' ranBody _ alongsideDone
  apply (returns.compared alongsideDone (by simp)).bind fun _ => afterEnd
  intro _ _ returned returned' ranReturn _ alongsideReturned
  cases ranBegin
  rcases keeps _ [] [] (Keeps.kept_begun _) (by simp) () done ranBody with ⟨operations, kept, _⟩
  have keepsReturn : KeepsAll [] emitReturn := .emitReturn
  rcases keepsReturn done operations [] kept (by simp) () returned ranReturn with
    ⟨_, keptReturned, _⟩
  exact .ofPaired (ends alongsideReturned.like
    (comparison.finished alongsideReturned.like.draft keptReturned)) alongsideReturned

end Blind

/-- All that is built does not see what comes later. -/
theorem Built.blind {caller : Procedure} {levels : Nat} {known : Known} {mode : Mode}
    {action : Compile α} (built : Built caller levels known mode action) :
    Blind comparison known.last action := by
  induction built with
  | pure value => exact .pure value
  | bind _ _ first second => exact .bind first second
  | recast same _ blind => exact same ▸ blind
  | refuse listed =>
    simp only [refusals, List.mem_cons, List.not_mem_nil, or_false] at listed
    rcases listed with rfl | rfl | rfl <;> exact .ofUniform (.fail rfl rfl)
  | miss _ => exact .failAhead (fun _ => rfl) rfl
  | tooDeep => exact .failAhead (fun _ => rfl) rfl
  | lookahead => exact .lookahead
  | advance => exact .advance
  | read _ rest => exact .read rest
  | call _ _ _ _ _ inside => exact inside
  | enter _ _ _ _ inside => exact inside.nested
  | repeatReading stays _ _ asks does =>
    exact .repeatWhile stays (reading_read fun kind => (does kind).onward) asks (.read does)
  | repeatDeclaring stays _ _ asks does =>
    exact .repeatWhile stays (reading_declaration _) asks does
  | separated _ state each => exact .separated each state
  | emit _ => exact .ofUniform (.emit _)
  | apply count => exact .ofUniform (.emitWith _ _)
  | jump _ _ rest => exact .bind (.ofUniform (.emitJump _)) rest
  | patch _ => exact .ofUniform (.patchJump _)
  | mark _ rest => exact .bind (.ofUniform .codeSize) rest
  | loop _ => exact .ofUniform (.emitLoop _)
  | number isLast =>
    rw [isLast]
    apply Blind.literal (by decide)
    intro lexeme
    split
    · exact .ofUniform (.emitNumber _)
    · exact .ofUniform (.fail rfl rfl)
  | string isLast =>
    rw [isLast]
    exact .literal (by decide) fun _ => .ofUniform (.emitString _)
  | scope kind _ inside =>
    apply Blind.bind (.ofUniform (.openScope kind))
    intro _
    exact .bind inside fun _ => .ofUniform .closeScope
  | loopStart _ => exact .ofUniform (.onScopes (Scope.setLoopStart _))
  | leave => exact .breakStatement
  | again => exact .continueStatement
  | use isLast _ assignable value => exact isLast ▸ .variableUse value assignable
  | declaring _ expectation _ inside =>
    apply Blind.declaring
    intro binding
    exact .bind inside.anywhere fun _ => .ofUniform (.define binding)
  | declaringVisibly expectation _ inside =>
    apply Blind.declaring
    intro binding
    apply Blind.writing (.makeVisible binding)
    intro _
    exact .bind inside fun _ => .ofUniform (.define binding)
  | function isLast _ built inside => exact isLast ▸ .function built.keeps inside
  | count _ rest =>
    apply Blind.inspect
    · intro compiler
      split
      · exact .failAhead (fun _ => rfl) rfl
      · exact .writing .addParameter fun _ => rest
    · intro left right parallel
      rw [parallel.arity_eq]
  | inFunction _ rest =>
    apply Blind.inspect
    · intro compiler
      cases compiler.draft.kind with
      | script => exact .ofUniform (.fail rfl rfl)
      | function => exact rest
    · intro left right parallel
      rw [parallel.kind_eq]

end Compile

end StackScript
