import StackScript.Proofs.Climbing
import StackScript.Proofs.Resemblance

/-!
# Reading beside writing

The compiler reads tokens and writes the code of their tree. Beside it, the same code is written
from the tree alone. `Compile.Follows` compares the two. The one thing that the tree does not tell
is whether the text `fits`: whether it nests too deeply, and whether what stands behind it is a
token at all. `Compile.ReadBy` says this of an action wherever its tokens are ahead.
-/

namespace StackScript

namespace Compile

variable {α β γ δ : Type}

/--
How a run of the compiler compares with writing a tree: where the text fits, both succeed and are
`good`, or both fail for the same reason.
-/
def Agrees (fits : Prop) (good : α → Compiler → β → Compiler → Prop) :
    EStateM.Result CompileError Compiler α → EStateM.Result CompileError Compiler β → Prop
  | .ok value after, .ok other writer => fits ∧ good value after other writer
  | .ok _ _, .error _ _ => False
  | .error _ _, .ok _ _ => ¬fits
  | .error error _, .error other _ => fits → error.kind = other.kind

/-- How a run of the compiler over `tokens` compares with writing the tree of these tokens. -/
def Follows (fits : Prop) (same : α → β → Prop) (compiler : Compiler) (tokens : List Token)
    (result : EStateM.Result CompileError Compiler α)
    (model : EStateM.Result CompileError Compiler β) : Prop :=
  Agrees fits (fun value after other writer =>
    same value other ∧ compiler.Passes tokens after ∧ after.Alike writer) result model

namespace Agrees

variable {fits fits' : Prop} {good : α → Compiler → β → Compiler → Prop}
  {good' : γ → Compiler → δ → Compiler → Prop} {compiler writer : Compiler}
  {result : EStateM.Result CompileError Compiler α}
  {model : EStateM.Result CompileError Compiler β}

theorem congr (agrees : Agrees fits good result model) (iff : fits ↔ fits') :
    Agrees fits' good result model := by
  rw [← propext iff]
  exact agrees

theorem imp {better : α → Compiler → β → Compiler → Prop} (agrees : Agrees fits good result model)
    (implies : ∀ value after other writer, good value after other writer →
      better value after other writer) : Agrees fits better result model := by
  cases result with
  | ok value after =>
    cases model with
    | ok other writer => exact ⟨agrees.1, implies _ _ _ _ agrees.2⟩
    | error error writer => exact agrees
  | error error after =>
    cases model with
    | ok other writer => exact agrees
    | error error' writer => exact agrees

theorem ofError {error : CompileError} {after : Compiler} (unfit : ¬fits) :
    Agrees fits good (.error error after) model := by
  cases model with
  | ok value writer => exact unfit
  | error other writer => exact fun fit => absurd fit unfit

theorem bind {action : Compile α} {model : Compile β} {next : α → Compile γ}
    {onward : β → Compile δ} (first : Agrees fits good (action compiler) (model writer))
    (second : fits → ∀ value other after writer', model writer = .ok other writer' →
      good value after other writer' →
      Agrees fits' good' (next value after) (onward other writer')) :
    Agrees (fits ∧ fits') good' ((action >>= next) compiler) ((model >>= onward) writer) := by
  rw [bind_apply, bind_apply]
  cases ran : action compiler with
  | ok value after =>
    cases wrote : model writer with
    | ok other writer' =>
      rw [ran, wrote] at first
      rcases first with ⟨fit, holds⟩
      have rest := second fit value other after writer' wrote holds
      simp only
      generalize next value after = result at rest
      generalize onward other writer' = result' at rest
      cases result with
      | ok value last =>
        cases result' with
        | ok other last' => exact ⟨⟨fit, rest.1⟩, rest.2⟩
        | error error last' => exact rest
      | error error last =>
        cases result' with
        | ok other last' => exact fun both => rest both.2
        | error error' last' => exact fun both => rest both.2
    | error error writer' =>
      rw [ran, wrote] at first
      exact first.elim
  | error error after =>
    rw [ran] at first
    simp only
    cases wrote : model writer with
    | ok other writer' =>
      rw [wrote] at first
      exact .ofError fun both => first both.1
    | error error' writer' =>
      rw [wrote] at first
      exact fun both => first both.1

end Agrees

theorem Paired.follows {same : α → β → Prop} {left right : Compiler}
    {result : EStateM.Result CompileError Compiler α}
    {model : EStateM.Result CompileError Compiler β}
    (paired : Paired .alike same left right result model) :
    Follows True same left [] result model := by
  cases paired with
  | ok related stays _ like => exact ⟨trivial, related, stays, like.draft, like.enclosing⟩
  | error => exact fun _ => (CompileError.Kind.renamed_id _).symm

namespace Uniform

theorem resolve (name : String) : Uniform .alike (resolve name) :=
  fun _ _ => resolve_paired name

theorem declareAs (name : String) : Uniform .alike (declareAs name) :=
  fun _ _ => declareAs_paired name

theorem beginFunctionAs (name : String) : Uniform .alike (beginFunctionAs name) :=
  fun _ _ => beginFunctionAs_paired name

end Uniform

end Compile

/-! ## Tokens ahead -/

/-- Whether tokens are ahead before the token `next`, with so many levels of the grammar left. -/
structure Compiler.Faces (compiler : Compiler) (last : Token) (levels : Nat)
    (tokens : List Token) (next : Token) (rest : List Token) : Prop where
  previous_eq : compiler.previous = last
  stream_eq : compiler.stream = tokens ++ next :: rest
  readable : compiler.current.Readable
  deep : Compile.maxNesting < levels + compiler.nesting
  shallow : compiler.nesting ≤ Compile.maxNesting

namespace Compiler.Faces

variable {compiler after : Compiler} {last next : Token} {levels : Nat}
  {tokens others rest : List Token}

theorem current_eq (faces : compiler.Faces last levels tokens next rest) :
    compiler.current = tokens.headD next := by
  have streamEq := faces.stream_eq
  cases tokens <;> exact (List.cons.inj streamEq).1

theorem front (faces : compiler.Faces last levels (tokens ++ others) next rest) :
    compiler.Faces last levels tokens (others.headD next) (others ++ next :: rest).tail := by
  refine { faces with stream_eq := ?_ }
  rw [faces.stream_eq, List.append_assoc]
  cases others <;> rfl

theorem behind (faces : compiler.Faces last levels (tokens ++ others) next rest)
    (passes : compiler.Passes tokens after) (readable : (others.headD next).Readable) :
    after.Faces (tokens.getLastD last) levels others next rest := by
  have streamEq : after.stream = others ++ next :: rest := by
    have whole : tokens ++ after.stream = tokens ++ (others ++ next :: rest) := by
      rw [← passes.stream_eq, faces.stream_eq, List.append_assoc]
    exact List.append_cancel_left whole
  have currentEq : after.current = others.headD next := by
    cases others <;> exact (List.cons.inj streamEq).1
  refine ⟨?_, streamEq, ?_, ?_, ?_⟩
  · rw [passes.previous_eq, faces.previous_eq]
  · rwa [currentEq]
  · rw [passes.nesting_eq]
    exact faces.deep
  · rw [passes.nesting_eq]
    exact faces.shallow

theorem length_le (faces : compiler.Faces last levels tokens next rest) :
    tokens.length ≤ compiler.upcoming.length := by
  have total := congrArg List.length faces.stream_eq
  simp only [stream, List.length_cons, List.length_append] at total
  omega

end Compiler.Faces

namespace Grammar

variable {stops stops' stops'' : Token.Kind → Prop} {tokens others : List Token} {first : Token}

/-- Whether tokens start as `stops` wants. -/
def Leads (stops : Token.Kind → Prop) (tokens : List Token) (stops' : Token.Kind → Prop) : Prop :=
  ∀ next : Token, stops' next.kind →
    stops (tokens.headD next).kind ∧ (next.Readable → (tokens.headD next).Readable)

/-- Whether a first token is of such a kind. -/
def Starts (stops : Token.Kind → Prop) (tokens : List Token) : Prop :=
  ∃ first rest, tokens = first :: rest ∧ stops first.kind ∧ first.Readable

theorem Starts.append (starts : Starts stops tokens) : Starts stops (tokens ++ others) := by
  rcases starts with ⟨first, rest, rfl, holds⟩
  exact ⟨first, rest ++ others, rfl, holds⟩

theorem Starts.leads (starts : Starts stops tokens) : Leads stops tokens stops' := by
  rcases starts with ⟨first, rest, rfl, holds, readable⟩
  exact fun _ _ => ⟨holds, fun _ => readable⟩

theorem Starts.readable (starts : Starts stops tokens) : Leads (fun _ => True) tokens stops' := by
  rcases starts with ⟨first, rest, rfl, _, readable⟩
  exact fun _ _ => ⟨trivial, fun _ => readable⟩

theorem Leads.nil (implies : ∀ kind, stops' kind → stops kind) : Leads stops [] stops' :=
  fun _ stopped => ⟨implies _ stopped, id⟩

theorem Leads.word {kind : Token.Kind} (found : first.kind = kind)
    (readable : ∀ reason, kind ≠ .error reason) : Leads (fun _ => True) (first :: tokens) stops :=
  fun _ _ => ⟨trivial, fun _ => Token.readable_of_eq found readable⟩

theorem Leads.append (leads : Leads stops tokens stops') (onward : Leads stops' others stops'') :
    Leads stops (tokens ++ others) stops'' := by
  cases tokens with
  | nil => exact fun next stopped =>
      have ahead := onward next stopped
      have here := leads _ ahead.1
      ⟨here.1, fun readable => here.2 (ahead.2 readable)⟩
  | cons first rest => exact fun next stopped =>
      have ahead := onward next stopped
      have here := leads _ ahead.1
      ⟨here.1, fun readable => here.2 (ahead.2 readable)⟩

end Grammar

/-! ## Actions that read -/

namespace Compile

theorem accept_of_ne {compiler : Compiler} {kind : Token.Kind}
    (other : compiler.current.kind ≠ kind) : accept kind compiler = .ok false compiler :=
  congrFun (if_neg other) compiler

open Grammar

variable {α β : Type} {last token : Token} {tokens others : List Token} {kind : Token.Kind}
  {depth inner : Nat} {stops stops' : Token.Kind → Prop} {action : Parser → Compile α}
  {model : Compile α} {next : α → Parser → Compile β} {onward : α → Compile β} {value : α}

/--
Whether an action of a level reads tokens as they are derived, behind the token `last` and up to a
token that stops it.
-/
def ReadBy (last : Token) (action : Parser → Compile α) (tokens : List Token) (model : Compile α)
    (depth : Nat) (stops : Token.Kind → Prop) : Prop :=
  ∀ ⦃levels : Nat⦄ ⦃compiler writer : Compiler⦄ ⦃next : Token⦄ ⦃rest : List Token⦄,
    compiler.Faces last levels tokens next rest → stops next.kind → compiler.Alike writer →
    Follows (compiler.nesting + depth ≤ maxNesting ∧ next.Readable) Eq compiler tokens
      (action (.level levels) compiler) (model writer)

namespace ReadBy

variable {expectation : Expectation} {bound : List Token} {chosen : Parser → Compile α}
  {item : Parser → α → Compile α}

theorem imp (read : ReadBy last action tokens model depth stops)
    (implies : ∀ kind, stops' kind → stops kind) : ReadBy last action tokens model depth stops' :=
  fun _ _ _ _ _ faces stopped => read faces (implies _ stopped)

theorem ahead {other : Parser → Compile α} (kinds : Token.Kind → Prop)
    (here : ∀ token : Token, stops token.kind → kinds (tokens.headD token).kind)
    (same : ∀ (inner : Parser) (compiler : Compiler), kinds compiler.current.kind →
      action inner compiler = other inner compiler)
    (read : ReadBy last other tokens model depth stops) :
    ReadBy last action tokens model depth stops := by
  intro levels compiler writer token rest faces stopped alike
  rw [same _ compiler (by rw [faces.current_eq]; exact here token stopped)]
  exact read faces stopped alike

theorem andThen (first : ReadBy last action tokens model depth stops)
    (leads : Leads stops others stops')
    (second : ∀ value, (∃ writer after, model writer = .ok value after) →
      ReadBy (tokens.getLastD last) (next value) others (onward value) inner stops') :
    ReadBy last (fun parser => action parser >>= fun value => next value parser) (tokens ++ others)
      (model >>= onward) (max depth inner) stops' := by
  intro levels compiler writer token rest faces stopped alike
  rcases leads token stopped with ⟨stoppedFirst, readable⟩
  have parts : compiler.nesting + max depth inner ≤ maxNesting ∧ token.Readable ↔
      (compiler.nesting + depth ≤ maxNesting ∧ (others.headD token).Readable) ∧
        compiler.nesting + inner ≤ maxNesting ∧ token.Readable := by
    rw [← Nat.add_max_add_left, Nat.max_le]
    tauto
  apply Agrees.congr _ parts.symm
  apply Agrees.bind (first faces.front stoppedFirst alike)
  rintro ⟨_, readableAhead⟩ value _ after writer' wrote ⟨rfl, passes, alikeAfter⟩
  have rest := second value ⟨_, _, wrote⟩ (faces.behind passes readableAhead) stopped alikeAfter
  rw [passes.nesting_eq] at rest
  exact rest.imp fun _ _ _ _ holds => ⟨holds.1, passes.trans holds.2.1, holds.2.2⟩

theorem followed (first : ReadBy last action tokens model 0 stops)
    (leads : Leads stops others stops')
    (second : ∀ value, (∃ writer after, model writer = .ok value after) →
      ReadBy (tokens.getLastD last) (next value) others (onward value) depth stops') :
    ReadBy last (fun parser => action parser >>= fun value => next value parser) (tokens ++ others)
      (model >>= onward) depth stops' := by
  have both := first.andThen leads second
  rwa [Nat.zero_max] at both

theorem before (first : ReadBy last action tokens (pure value) 0 stops)
    (leads : Leads stops others stops') {model : Compile β}
    (second : ReadBy (tokens.getLastD last) (next value) others model depth stops') :
    ReadBy last (fun parser => action parser >>= fun value => next value parser) (tokens ++ others)
      model depth stops' := by
  rw [← pure_bind value fun _ => model]
  refine first.followed leads fun given gives => ?_
  rcases gives with ⟨writer, after, ⟨⟩⟩
  exact second

theorem ofUniform {action : Compile α} (uniform : Uniform .alike action) :
    ReadBy last (fun _ => action) [] action 0 stops := by
  intro levels compiler writer token rest faces _ alike
  have readable : ([].headD token).Readable := faces.current_eq ▸ faces.readable
  rw [List.headD_nil] at readable
  apply (uniform compiler writer alike.like).follows.congr
  simp [faces.shallow, readable]

theorem thenUniform {after : α → Compile β} (first : ReadBy last action tokens model depth stops)
    (uniform : ∀ value, Uniform .alike (after value)) :
    ReadBy last (fun parser => action parser >>= after) tokens (model >>= after) depth stops := by
  have both := first.andThen (.nil fun _ => id) fun value _ => .ofUniform (uniform value)
  simpa using both

theorem uniformThen {action : Compile α} (uniform : Uniform .alike action)
    (second : ∀ value, ReadBy last (next value) tokens (onward value) depth stops) :
    ReadBy last (fun parser => action >>= fun value => next value parser) tokens (action >>= onward)
      depth stops := by
  intro levels compiler writer token rest faces stopped alike
  apply Agrees.congr _ (iff_of_eq (true_and _))
  apply Agrees.bind (uniform compiler writer alike.like).follows
  rintro _ value _ after writer' _ ⟨rfl, passes, alikeAfter⟩
  have readable : (tokens.headD token).Readable := faces.current_eq ▸ faces.readable
  have rest := second value (faces.behind passes readable) stopped alikeAfter
  rw [passes.nesting_eq] at rest
  exact rest.imp fun _ _ _ _ holds => ⟨holds.1, passes.trans holds.2.1, holds.2.2⟩

theorem nested {action outer : Parser → Compile Unit} {model : Compile Unit}
    (above : ∀ inner : Parser, outer inner.above = Compile.nested (action inner))
    (fails : ∀ compiler, outer .exhausted compiler = failAhead .tooDeeplyNested compiler)
    (read : ReadBy last action tokens model depth stops) :
    ReadBy last outer tokens model (depth + 1) stops := by
  intro levels compiler writer token rest faces stopped alike
  have deep := faces.deep
  cases levels with
  | zero =>
    change Agrees _ _ (outer .exhausted compiler) _
    rw [fails]
    exact .ofError (by omega)
  | succ below =>
    change Agrees _ _ (outer (Parser.level below).above compiler) _
    rw [above, Compile.nested]
    split
    · next open_ =>
      have inside := @read below { compiler with nesting := compiler.nesting + 1 } writer token rest
        { faces with deep := by simp only; omega, shallow := open_ } stopped
        ⟨alike.draft, alike.enclosing⟩
      simp only [Nat.add_assoc, Nat.add_comm 1 depth] at inside
      generalize action _ _ = result at inside
      cases result with
      | ok value after =>
        cases wrote : model writer with
        | ok other writer' =>
          rw [wrote] at inside
          rcases inside with ⟨fit, _, passes, alike'⟩
          refine ⟨fit, rfl, ⟨passes.stream_eq, passes.previous_eq, ?_⟩, alike'.draft,
            alike'.enclosing⟩
          simp only [passes.nesting_eq, Nat.add_sub_cancel]
        | error error writer' =>
          rw [wrote] at inside
          exact inside
      | error error after =>
        cases wrote : model writer with
        | ok other writer' =>
          rw [wrote] at inside
          exact inside
        | error error' writer' =>
          rw [wrote] at inside
          exact inside
    · exact .ofError (by omega)

/-! ### Single tokens -/

theorem advance : ReadBy last (fun _ => advance) [token] (pure ()) 0 stops := by
  intro levels compiler writer ahead rest faces _ alike
  have upcomingEq : compiler.upcoming = ahead :: rest := (List.cons.inj faces.stream_eq).2
  have shiftEq : compiler.shift = { compiler with
      previous := compiler.current, current := ahead, upcoming := rest } := by
    rw [Compiler.shift, upcomingEq]
  simp only [Compile.advance, shiftEq]
  split
  · next reason isError => exact fun fits => fits.2 reason isError
  · next regular =>
    exact ⟨⟨faces.shallow, regular⟩, rfl, ⟨faces.stream_eq, faces.current_eq, rfl⟩,
      alike.draft, alike.enclosing⟩

theorem advanced {next : Parser → Compile α} (read : ReadBy token next tokens model depth stops)
    (leads : Leads (fun _ => True) tokens stops) :
    ReadBy last (fun parser => Compile.advance >>= fun _ => next parser) (token :: tokens) model
      depth stops :=
  advance.before leads read

theorem lookahead {next : Token.Kind → Parser → Compile α} (kinds : Token.Kind → Prop)
    (here : ∀ token : Token, stops token.kind → kinds (tokens.headD token).kind)
    (chooses : ∀ (parser : Parser) (kind : Token.Kind), kinds kind →
      next kind parser = chosen parser)
    (read : ReadBy last chosen tokens model depth stops) :
    ReadBy last (fun parser => lookahead >>= fun kind => next kind parser) tokens model depth
      stops :=
  .ahead kinds here (fun parser compiler holds => congrFun (chooses parser _ holds) compiler) read

theorem introduced {next : Token.Kind → Parser → Compile α} (introduces : token.kind = kind)
    (leads : Leads (fun _ => True) tokens stops)
    (read : ReadBy token chosen tokens model depth stops)
    (chooses : ∀ parser, next kind parser = Compile.advance >>= fun _ => chosen parser) :
    ReadBy last (fun parser => Compile.lookahead >>= fun kind => next kind parser) (token :: tokens)
      model depth stops := by
  refine .lookahead (· = kind) (fun _ _ => introduces) ?_ (read.advanced leads)
  rintro parser _ rfl
  exact chooses parser

theorem expect (found : token.kind = kind) :
    ReadBy last (fun _ => expect kind expectation) [token] (pure ()) 0 stops := by
  refine .ahead (· = kind) (fun _ _ => found) ?_ advance
  intro _ compiler here
  exact congrFun (if_pos here) compiler

theorem accept (found : token.kind = kind) :
    ReadBy last (fun _ => accept kind) [token] (pure true) 0 stops := by
  have read : ReadBy last (fun _ => Compile.advance >>= fun _ => pure true) [token] (pure true) 0
      stops := advance.before (.nil fun _ _ => trivial) (.ofUniform (.pure true))
  refine .ahead (· = kind) (fun _ _ => found) ?_ read
  intro _ compiler here
  exact congrFun (if_pos here) compiler

theorem expected {next : Parser → Compile α} (found : token.kind = kind)
    (leads : Leads (fun _ => True) tokens stops)
    (read : ReadBy token next tokens model depth stops) :
    ReadBy last (fun parser => Compile.expect kind expectation >>= fun _ => next parser)
      (token :: tokens) model depth stops :=
  (expect found).before leads read

theorem expectedThen {action : Parser → Compile Unit} {model : Compile Unit}
    {next : Parser → Compile β} {onward : Compile β}
    (first : ReadBy last action tokens model depth stops) (found : token.kind = kind)
    (stopped : stops kind) (readable : ∀ reason, kind ≠ .error reason)
    (leads : Leads (fun _ => True) others stops')
    (second : ReadBy token next others onward inner stops') :
    ReadBy last (fun parser => action parser >>= fun _ =>
        Compile.expect kind expectation >>= fun _ =>
      next parser) (tokens ++ token :: others) (model >>= fun _ => onward) (max depth inner)
      stops' := by
  subst found
  exact first.andThen (fun _ _ => ⟨stopped, fun _ => readable⟩) fun _ _ =>
    .expected rfl leads second

theorem thenExpect {action : Parser → Compile Unit} {model : Compile Unit}
    (first : ReadBy last action tokens model depth stops) (found : token.kind = kind)
    (stopped : stops kind) (readable : ∀ reason, kind ≠ .error reason) :
    ReadBy last (fun parser => action parser >>= fun _ => Compile.expect kind expectation)
      (tokens ++ [token]) model depth stops' := by
  have both : ReadBy last (fun parser => action parser >>= fun _ =>
      Compile.expect kind expectation >>= pure) (tokens ++ [token]) (model >>= fun _ => pure ())
      (max depth 0) stops' :=
    first.expectedThen found stopped readable (.nil fun _ _ => trivial) (.ofUniform (.pure ()))
  simpa using both

theorem accepted {next : Bool → Parser → Compile α} (found : token.kind = kind)
    (leads : Leads (fun _ => True) tokens stops)
    (read : ReadBy token (next true) tokens model depth stops) :
    ReadBy last (fun parser => Compile.accept kind >>= fun found => next found parser)
      (token :: tokens) model depth stops :=
  (accept found).before leads read

theorem declined {next : Bool → Parser → Compile α}
    (here : ∀ token : Token, stops token.kind → (tokens.headD token).kind ≠ kind)
    (read : ReadBy last (next false) tokens model depth stops) :
    ReadBy last (fun parser => Compile.accept kind >>= fun found => next found parser) tokens model
      depth stops :=
  .ahead (· ≠ kind) here (fun _ _ other => bind_of_ok (accept_of_ne other)) read

theorem lastLexeme {next : String → Parser → Compile α}
    (read : ReadBy last (next last.lexeme) tokens model depth stops) :
    ReadBy last (fun parser => lastLexeme >>= fun lexeme => next lexeme parser) tokens model depth
      stops := by
  intro levels compiler writer ahead rest faces
  have here := @read levels compiler writer ahead rest faces
  rw [← faces.previous_eq] at here
  exact here

theorem upcoming {next : List Token → Parser → Compile α}
    (read : ∀ bound : List Token, tokens.length ≤ bound.length →
      ReadBy last (next bound) tokens model depth stops) :
    ReadBy last (fun parser => get >>= fun compiler => next compiler.upcoming parser) tokens model
      depth stops :=
  fun _ _ _ _ _ faces => read _ faces.length_le faces

/-! ### Items with commas between them -/

theorem lastItem {state : α} (read : ReadBy last (item · state) tokens model depth stops)
    (ends : ∀ kind, stops kind → kind ≠ .comma) :
    ReadBy last (fun parser => separatedWithin (item parser) bound state) tokens model depth
      stops := by
  cases bound with
  | nil => exact read
  | cons _ bound =>
    have both : ReadBy last (fun parser => item parser state >>= fun state =>
        Compile.accept .comma >>= fun found =>
          if found then separatedWithin (item parser) bound state else pure state) (tokens ++ [])
        (model >>= pure) (max depth 0) stops :=
      read.andThen (.nil fun _ => id) fun state _ =>
        .declined (fun token stopped => ends token.kind stopped) (.ofUniform (.pure state))
    rw [List.append_nil, bind_pure, Nat.max_zero] at both
    exact both

theorem moreItems {state : α} {onward : α → Compile α}
    (read : ReadBy last (item · state) tokens model depth (· = .comma))
    (separator : token.kind = .comma) (leads : Leads (fun _ => True) others stops)
    (further : ∀ value (bound : List Token), others.length ≤ bound.length →
      ReadBy token (fun parser => separatedWithin (item parser) bound value) others (onward value)
        inner stops) (enough : (tokens ++ token :: others).length ≤ bound.length) :
    ReadBy last (fun parser => separatedWithin (item parser) bound state)
      (tokens ++ token :: others)
      (model >>= onward) (max depth inner) stops := by
  rw [List.length_append, List.length_cons] at enough
  cases bound with
  | nil => exact absurd enough (by simp)
  | cons _ bound =>
    refine read.andThen (fun _ _ => ⟨separator, fun _ => ?_⟩) fun value _ =>
      .accepted separator leads (further value bound ?_)
    · exact Token.readable_of_eq separator (by simp)
    · rw [List.length_cons] at enough
      omega

end ReadBy

end Compile

end StackScript
