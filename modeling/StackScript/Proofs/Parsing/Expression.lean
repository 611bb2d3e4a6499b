import StackScript.Proofs.Parsing.Basic

/-!
# Expressions are read as they are derived

Where an expression is ahead that the next token does not continue, the compiler reads it and writes
its tree. The induction follows the expression from left to right, and says what the compiler does
with a part and whatever it does behind that part.
-/

namespace StackScript

open Grammar

namespace Compile

variable {inner : Parser} {level : Precedence} {compiler : Compiler} {bound : List Token}

/-! ## One level of an expression -/

/-- What an expression goes on with behind an operand, with at most as many rounds as tokens. -/
def climbOn (inner : Parser) (level : Precedence) (bound : List Token) : Compile Unit := do
  repeatWithin (continues level) (continueExpression inner) bound
  if decide (level ≤ .assignment) && (← lookahead) = .equal then
    advance
    fail .invalidAssignmentTarget

theorem climbOn_stop (stops : ¬level ≤ compiler.current.kind.precedence)
    (noTarget : level ≤ .assignment → compiler.current.kind ≠ .equal) :
    climbOn inner level bound compiler = .ok () compiler := by
  have ended : repeatWithin (continues level) (continueExpression inner) bound compiler =
      .ok () compiler := by
    have decided : continues level compiler = .ok false compiler := by
      change EStateM.Result.ok (decide (level ≤ compiler.current.kind.precedence)) compiler = _
      rw [decide_eq_false stops]
    cases bound with
    | nil => exact (bind_of_ok decided)
    | cons token bound => exact (bind_of_ok decided)
  have noError : (decide (level ≤ .assignment) && decide (compiler.current.kind = .equal)) =
      false := by
    rw [Bool.and_eq_false_imp]
    intro loose
    exact decide_eq_false (noTarget (of_decide_eq_true loose))
  rw [climbOn, bind_of_ok ended]
  change (if (decide (level ≤ .assignment) && decide (compiler.current.kind = .equal)) = true
    then _ else pure () : Compile Unit) compiler = _
  rw [noError]
  rfl

theorem climbOn_continue {form : Trailing} {extra : Token}
    (goesOn : compiler.current.kind.trailing? = some form) (tight : level ≤ form.precedence) :
    climbOn inner level (extra :: bound) compiler =
      (advance >>= fun _ => trailing inner form >>= fun _ =>
        climbOn inner level bound) compiler := by
  have decided : continues level compiler = .ok true compiler := by
    change EStateM.Result.ok (decide (level ≤ compiler.current.kind.precedence)) compiler = _
    rw [decide_eq_true]
    rw [Token.Kind.precedence, goesOn]
    exact tight
  have once : repeatWithin (continues level) (continueExpression inner) (extra :: bound) compiler =
      (continueExpression inner >>= fun _ =>
        repeatWithin (continues level) (continueExpression inner) bound) compiler :=
    bind_of_ok decided
  have chosen : continueExpression inner compiler =
      (advance >>= fun _ => trailing inner form) compiler := by
    change (advance >>= fun _ => _) compiler = _
    rw [goesOn]
  rw [climbOn, bind_apply, once, bind_apply, chosen]
  simp only [bind_apply, climbOn]
  cases advance compiler with
  | ok value after =>
    simp only
    cases trailing inner form after <;> rfl
  | error error after => rfl

end Compile

/-- Whether such a token ends an expression at this level, without an assignment to it. -/
def Token.Kind.Ends (level : Precedence) (kind : Token.Kind) : Prop :=
  ¬level ≤ kind.precedence ∧ (level ≤ .assignment → kind ≠ .equal)

theorem Token.Kind.ends_of_none {kind : Token.Kind} (stops : kind.trailing? = none)
    (noTarget : kind ≠ .equal) : kind.Ends .assignment := by
  refine ⟨?_, fun _ => noTarget⟩
  rw [Token.Kind.precedence, stops]
  decide

namespace Grammar

variable {tokens : List Token} {depth : Nat} {level : Precedence}

open Compile

/-- Whether an expression can start so. -/
def opensExpression (kind : Token.Kind) : Prop :=
  ∃ form, kind.leading? = some form

theorem starts_of_first
    (first : ∃ first rest form, tokens = first :: rest ∧ first.kind.leading? = some form) :
    Starts opensExpression tokens := by
  rcases first with ⟨first, rest, form, rfl, starts⟩
  exact ⟨first, rest, rfl, ⟨form, starts⟩, Token.readable_of_leading starts⟩

theorem Chain.leads {expression : Expression} {stops : Token.Kind → Prop}
    (chain : Chain tokens expression level depth) : Leads (fun _ => True) tokens stops :=
  (starts_of_first chain.exists_first).readable

/-- Whether such a token leaves what is behind `level` to whatever is read at `reached`. -/
def Continues (level reached : Precedence) (kind : Token.Kind) : Prop :=
  kind.Extends reached ∧ (level ≤ .assignment → kind ≠ .equal)

/--
Whether reading a part of an expression, and whatever comes behind it, follows writing its tree and
whatever is written behind that.
-/
def ReadAlong (tokens : List Token) (expression : Expression) (reached : Precedence)
    (depth : Nat) : Prop :=
  ∀ ⦃last : Token⦄ ⦃level : Precedence⦄ ⦃behind : List Token⦄ ⦃onward : Compile Unit⦄ ⦃inner : Nat⦄
    ⦃stops : Token.Kind → Prop⦄,
    .assignment ≤ level → level ≤ reached → Leads (Continues level reached) behind stops →
    (∀ (last : Token) (bound : List Token), behind.length ≤ bound.length →
      ReadBy last (climbOn · level bound) behind onward inner stops) →
    ReadBy last (climb · level) (tokens ++ behind) (expression.generate >>= fun _ => onward)
      (max depth inner) stops

theorem ReadAlong.operand {last : Token} {expression : Expression} {reached : Precedence}
    (along : ReadAlong tokens expression reached depth) (loose : .assignment ≤ level)
    (tight : level ≤ reached) :
    ReadBy last (·.operand level) tokens expression.generate (depth + 1)
      (Token.Kind.Ends level) := by
  have ends : ∀ (last : Token) (bound : List Token), ([] : List Token).length ≤ bound.length →
      ReadBy last (climbOn · level bound) [] (pure ()) 0 (Token.Kind.Ends level) :=
    fun _ _ _ => .ahead (Token.Kind.Ends level) (fun _ stopped => stopped)
      (fun _ _ stopped => climbOn_stop stopped.1 stopped.2) (.ofUniform (.pure ()))
  have whole : ReadBy last (climb · level) (tokens ++ []) (expression.generate >>= fun _ => pure ())
      (max depth 0) (Token.Kind.Ends level) := along loose tight
    (.nil fun _ stopped => ⟨extends_mono (extends_of_not_le stopped.1) tight, stopped.2⟩) ends
  have read : ReadBy last (climb · level) tokens expression.generate depth
      (Token.Kind.Ends level) := by simpa using whole
  exact read.nested (fun _ => rfl) fun _ => rfl

theorem ReadAlong.expression {last : Token} {expression : Expression}
    (along : ReadAlong tokens expression level depth) (loose : .assignment ≤ level) :
    ReadBy last Parser.expression tokens expression.generate (depth + 1)
      (Token.Kind.Ends .assignment) :=
  along.operand (Precedence.le_refl .assignment) loose

/-! ## First operands -/

section Leading

variable {token : Token} {tokens : List Token} {expression : Expression} {reached : Precedence}
  {depth : Nat} {form : Leading}

theorem leading_along (starts : token.kind.leading? = some form)
    (leads : Leads (fun _ => True) tokens fun _ => True)
    (reads : ∀ level : Precedence, level ≤ reached →
      ReadBy token (leading · (level ≤ .assignment) form) tokens expression.generate depth
        (Continues level reached)) : ReadAlong (token :: tokens) expression reached depth := by
  intro last level behind onward inner stops _ tight leadsBehind further
  have readBehind : ReadBy token (fun parser => leading parser (level ≤ .assignment) form >>=
      fun _ => get >>= fun reached => climbOn parser level reached.upcoming) (tokens ++ behind)
      (expression.generate >>= fun _ => onward) (max depth inner) stops :=
    (reads level tight).andThen leadsBehind fun _ _ => .upcoming (further _)
  refine .lookahead (·.leading? = some form) (fun _ _ => starts) ?_ (readBehind.advanced
    (leads.append fun next stopped => ⟨trivial, (leadsBehind next stopped).2⟩))
  intro parser kind starts
  simp only [starts, repeatWhile, climbOn, bind_assoc]

theorem plain_along (starts : token.kind.leading? = some form)
    (reads : ∀ level : Precedence, level ≤ .primary →
      ReadBy token (leading · (level ≤ .assignment) form) [] expression.generate 0
        (Continues level .primary)) : ReadAlong [token] expression .primary 0 :=
  leading_along starts (.nil fun _ => id) reads

theorem number_along {value : Float} (kind : token.kind = .number)
    (denotes : Number.parse? token.lexeme = some value) :
    ReadAlong [token] (.number value) .primary 0 := by
  refine plain_along (by rw [kind]; rfl) fun _ _ => .lastLexeme ?_
  rw [denotes, Expression.generate]
  exact .ofUniform (.emitNumber _)

theorem string_along (kind : token.kind = .string) :
    ReadAlong [token] (.string (unquote token.lexeme)) .primary 0 := by
  refine plain_along (by rw [kind]; rfl) fun _ _ => .lastLexeme ?_
  rw [Expression.generate]
  exact .ofUniform (.emitString _)

theorem literal_along {value : KeywordLiteral}
    (kind : token.kind.leading? = some (.literal value)) :
    ReadAlong [token] (.literal value) .primary 0 := by
  refine plain_along kind fun _ _ => ?_
  rw [Expression.generate]
  exact .ofUniform (.emit _)

theorem reference_along (kind : token.kind = .identifier) :
    ReadAlong [token] (.reference token.lexeme) .primary 0 := by
  refine plain_along (by rw [kind]; rfl) fun level _ => .lastLexeme ?_
  rw [Expression.generate]
  refine .uniformThen (.resolve _) fun reference =>
    .lookahead (fun kind => level ≤ .assignment → kind ≠ .equal) (fun _ stopped => stopped.2) ?_
      (.ofUniform (.emitGet reference))
  intro parser kind noTarget
  simp only [Bool.and_eq_true, decide_eq_true_eq]
  exact if_neg fun both => noTarget both.1 both.2

theorem grouping_along {opening closing : Token} (opens : opening.kind = .leftParen)
    (inside : Chain tokens expression reached depth)
    (along : ReadAlong tokens expression reached depth) (closes : closing.kind = .rightParen) :
    ReadAlong (opening :: tokens ++ [closing]) expression .primary (depth + 1) :=
  leading_along (by rw [opens]; rfl) (inside.leads.append (.word closes (by simp))) fun _ _ =>
    (along.expression inside.assignment_le).thenExpect closes
      (Token.Kind.ends_of_none rfl (by simp))
      (by simp)

theorem unary_along {operator : UnaryOperator}
    (kind : token.kind.leading? = some (.unary operator))
    (operated : Chain tokens expression reached depth)
    (along : ReadAlong tokens expression reached depth) (tight : .unary ≤ reached) :
    ReadAlong (token :: tokens) (.unary operator expression) .unary (depth + 1) := by
  refine leading_along kind operated.leads fun level _ => ?_
  rw [Expression.generate]
  refine ((along.operand (by decide) tight).thenUniform fun _ => .emit operator.opcode).imp ?_
  exact fun kind stopped => ⟨stops_of_extends .unary stopped.1 (by decide) (by decide),
    fun loose => absurd loose (by decide)⟩

theorem assign_along {name equals : Token} (target : name.kind = .identifier)
    (sign : equals.kind = .equal) (assigned : Chain tokens expression reached depth)
    (along : ReadAlong tokens expression reached depth) :
    ReadAlong (name :: equals :: tokens) (.assign name.lexeme expression) .assignment
      (depth + 1) := by
  refine leading_along (by rw [target]; rfl) (.word sign (by simp)) fun level loose =>
    .lastLexeme ?_
  rw [Expression.generate]
  refine .uniformThen (.resolve _) fun reference => .introduced sign assigned.leads
    (((along.expression assigned.assignment_le).thenUniform fun _ => .emitSet reference).imp ?_)
    fun parser => by simp only [loose, decide_true, Bool.and_self, if_true]
  exact fun kind stopped => ⟨stops_of_extends .assignment stopped.1 (by decide) (by decide),
    fun _ => stopped.2 loose⟩

end Leading

/-! ## Arguments -/

/-- Whether the compiler reads arguments as they are derived, behind `count` others. -/
def ReadGiven (tokens : List Token) (arguments : List Expression) (depth : Nat) : Prop :=
  ∀ (last : Token) (count : Nat) (bound : List Token), arguments ≠ [] →
    tokens.length ≤ bound.length →
    ReadBy last (fun parser => separatedWithin (argument parser) bound count) tokens
      (Expression.generateAll arguments count >>= fun _ => pure (count + arguments.length)) depth
      (· = .rightParen)

section Arguments

variable {tokens rest : List Token} {expression : Expression} {reached : Precedence}
  {depth inner : Nat}

theorem generateAll_counted (arguments : List Expression) (count : Nat) :
    (Expression.generateAll (expression :: arguments) count >>= fun _ =>
      (pure (count + (expression :: arguments).length) : Compile Nat)) =
    (expression.generate >>= fun _ => if count = maxArguments then fail .tooManyArguments
      else pure (count + 1)) >>= fun count =>
        Expression.generateAll arguments count >>= fun _ => pure (count + arguments.length) := by
  rw [Expression.generateAll, bind_assoc, bind_assoc]
  congr 1
  funext _
  split
  · rfl
  · rw [pure_bind, List.length_cons, Nat.add_assoc, Nat.add_comm 1]

theorem argument_read {last : Token} {count : Nat} {kind : Token.Kind}
    (only : Chain tokens expression reached depth)
    (along : ReadAlong tokens expression reached depth) (ends : kind.Ends .assignment) :
    ReadBy last (argument · count) tokens (expression.generate >>= fun _ =>
      if count = maxArguments then fail .tooManyArguments else pure (count + 1)) (depth + 1)
      (· = kind) := by
  refine ((along.expression only.assignment_le).thenUniform fun _ => ?_).imp ?_
  · split
    · exact .fail rfl rfl
    · exact .pure _
  · rintro _ rfl
    exact ends

theorem last_given (only : Chain tokens expression reached depth)
    (along : ReadAlong tokens expression reached depth) :
    ReadGiven tokens [expression] (depth + 1) := by
  intro last count bound _ _
  rw [generateAll_counted]
  simp only [Expression.generateAll, pure_bind, List.length_nil, Nat.add_zero, bind_pure]
  refine .lastItem (argument_read only along (Token.Kind.ends_of_none rfl (by simp))) ?_
  rintro _ rfl
  simp

theorem more_given {comma : Token} {next : Expression} {others : List Expression}
    (first : Chain tokens expression reached depth)
    (along : ReadAlong tokens expression reached depth) (separator : comma.kind = .comma)
    (given : Given rest (next :: others) inner)
    (readGiven : ReadGiven rest (next :: others) inner) :
    ReadGiven (tokens ++ comma :: rest) (expression :: next :: others) (max (depth + 1) inner) := by
  intro last count bound _ enough
  rw [generateAll_counted]
  exact .moreItems (argument_read first along (Token.Kind.ends_of_none rfl (by simp))) separator
    (starts_of_first given.exists_first).readable
    (fun count bound => readGiven comma count bound (List.cons_ne_nil _ _)) enough

end Arguments

/-! ## What extends an operand -/

section Trailing

variable {token closing opening : Token} {front back inside : List Token} {left right : Expression}
  {reached behind : Precedence} {depth inner : Nat} {arguments : List Expression}

theorem extend_along (form : Trailing) {whole : Expression} {tail : Compile Unit}
    (kind : token.kind.trailing? = some form) (along : ReadAlong front left reached depth)
    (tight : form.frontLevel ≤ reached)
    (writes : whole.generate = left.generate >>= fun _ => tail)
    (leads : Leads (fun _ => True) back fun _ => True)
    (reads : ReadBy token (trailing · form) back tail inner (Token.Kind.Extends form.precedence)) :
    ReadAlong (front ++ token :: back) whole form.precedence (max depth inner) := by
  intro last level behind onward deeper stops loose level_le leadsBehind further
  have levelFront : level ≤ reached :=
    Precedence.le_trans level_le (Precedence.le_trans form.precedence_le_frontLevel tight)
  have extendsFront : Continues level reached token.kind := by
    refine ⟨?_, ?_⟩
    · intro other isOther
      rw [kind] at isOther
      cases isOther
      exact tight
    · intro _ isEqual
      rw [isEqual] at kind
      cases kind
  have leadsBack : Leads (Token.Kind.Extends form.precedence) behind stops :=
    fun next stopped => ⟨(leadsBehind next stopped).1.1, (leadsBehind next stopped).2⟩
  have readBack : ∀ (last : Token) (bound : List Token),
      (token :: (back ++ behind)).length ≤ bound.length →
      ReadBy last (climbOn · level bound) (token :: (back ++ behind)) (tail >>= fun _ => onward)
        (max inner deeper) stops := by
    intro last bound enough
    cases bound with
    | nil => exact absurd enough (by simp)
    | cons extra bound =>
      have readOn : ReadBy last (fun parser => advance >>= fun _ => trailing parser form >>=
          fun _ => climbOn parser level bound) (token :: (back ++ behind))
          (tail >>= fun _ => onward) (max inner deeper) stops := by
        refine ReadBy.advanced (reads.andThen leadsBack fun _ _ => further _ bound ?_)
          (leads.append fun next stopped => ⟨trivial, (leadsBack next stopped).2⟩)
        simp only [List.length_cons, List.length_append] at enough
        omega
      exact .ahead (·.trailing? = some form) (fun _ _ => kind)
        (fun _ _ goesOn => climbOn_continue goesOn level_le) readOn
  rw [writes, bind_assoc, List.append_assoc, Nat.max_assoc]
  exact along loose levelFront
    (fun _ _ => ⟨extendsFront, fun _ => Token.readable_of_trailing kind⟩) readBack

theorem binary_along {operator : BinaryOperator}
    (along : ReadAlong front left reached depth) (tight : operator.precedence ≤ reached)
    (kind : token.kind.trailing? = some (.binary operator))
    (rightOperand : Chain back right behind inner) (alongRight : ReadAlong back right behind inner)
    (tighter : operator.precedence.tighter ≤ behind) :
    ReadAlong (front ++ token :: back) (.binary operator left right) operator.precedence
      (max depth (inner + 1)) := by
  refine extend_along (.binary operator) kind along tight (by rw [Expression.generate])
    rightOperand.leads
    (((alongRight.operand (by cases operator <;> decide) tighter).thenUniform fun _ =>
      .forM fun opcode => .emit opcode).imp ?_)
  intro kind goesOn
  have stops := stops_of_extends operator.precedence goesOn (by cases operator <;> decide)
    (by cases operator <;> decide)
  rw [operator.rightLevel_precedence] at stops
  exact ⟨stops, fun loose => absurd loose (by cases operator <;> decide)⟩

theorem and_along (along : ReadAlong front left reached depth) (tight : .equality ≤ reached)
    (kind : token.kind = .keyword .andKw) (rightOperand : Chain back right behind inner)
    (alongRight : ReadAlong back right behind inner) (tighter : .and ≤ behind) :
    ReadAlong (front ++ token :: back) (.and left right) .and (max depth (inner + 1)) := by
  refine extend_along .and (by rw [kind]; rfl) along tight (by rw [Expression.generate])
    rightOperand.leads
    (.uniformThen (.emitJump _) fun decided => .uniformThen (.emit _) fun _ =>
      ((alongRight.operand (by decide) tighter).thenUniform fun _ => .patchJump decided).imp ?_)
  exact fun _ goesOn => ⟨stops_of_extends .and goesOn (by decide) (by decide),
    fun loose => absurd loose (by decide)⟩

theorem or_along (along : ReadAlong front left reached depth) (tight : .and ≤ reached)
    (kind : token.kind = .keyword .orKw) (rightOperand : Chain back right behind inner)
    (alongRight : ReadAlong back right behind inner) (tighter : .or ≤ behind) :
    ReadAlong (front ++ token :: back) (.or left right) .or (max depth (inner + 1)) := by
  refine extend_along .or (by rw [kind]; rfl) along tight (by rw [Expression.generate])
    rightOperand.leads
    (.uniformThen (.emitJump _) fun undecided => .uniformThen (.emitJump _) fun decided =>
      .uniformThen (.patchJump undecided) fun _ => .uniformThen (.emit _) fun _ =>
      ((alongRight.operand (by decide) tighter).thenUniform fun _ => .patchJump decided).imp ?_)
  exact fun _ goesOn => ⟨stops_of_extends .or goesOn (by decide) (by decide),
    fun loose => absurd loose (by decide)⟩

theorem arguments_read (given : Given inside arguments inner)
    (readGiven : ReadGiven inside arguments inner) (closes : closing.kind = .rightParen)
    (stops : Token.Kind → Prop) :
    ReadBy opening Compile.arguments (inside ++ [closing])
      (Expression.generateAll arguments 0 >>= fun _ => pure arguments.length) inner stops := by
  have readable : closing.Readable := Token.readable_of_eq closes (by simp)
  have readClosing : ∀ (last : Token) (count : Nat), ReadBy last (fun _ =>
      expect .rightParen .parenAfterArguments >>= fun _ => pure count) [closing] (pure count) 0
      stops :=
    fun _ count => .expected closes (.nil fun _ _ => trivial) (.ofUniform (.pure count))
  cases arguments with
  | nil =>
    cases given
    rw [Expression.generateAll, pure_bind]
    refine .lookahead (· = .rightParen) (fun _ _ => closes) ?_ (readClosing opening 0)
    rintro parser _ rfl
    rfl
  | cons first others =>
    have all : ReadBy opening (fun parser => separated (argument parser) 0 >>= fun count =>
        expect .rightParen .parenAfterArguments >>= fun _ => pure count) (inside ++ [closing])
        ((Expression.generateAll (first :: others) 0 >>= fun _ =>
          pure (0 + (first :: others).length)) >>= pure) (max inner 0) stops := by
      refine ReadBy.andThen (ReadBy.upcoming fun bound =>
        readGiven opening 0 bound (List.cons_ne_nil _ _)) ?_ fun count _ => readClosing _ count
      exact fun _ _ => ⟨closes, fun _ => readable⟩
    rw [bind_pure, Nat.zero_add, Nat.max_zero] at all
    refine .lookahead opensExpression ?_ ?_ all
    · exact fun next stopped => ((starts_of_first given.exists_first).append.leads next stopped).1
    · intro parser kind starts
      rw [if_neg]
      rintro rfl
      rcases starts with ⟨form, ⟨⟩⟩

theorem call_along (along : ReadAlong front left reached depth) (tight : .call ≤ reached)
    (opens : opening.kind = .leftParen) (given : Given inside arguments inner)
    (readGiven : ReadGiven inside arguments inner) (closes : closing.kind = .rightParen) :
    ReadAlong (front ++ opening :: inside ++ [closing]) (.call left arguments) .call
      (max depth inner) := by
  have leads : Leads (fun _ => True) inside fun _ => True := by
    cases given with
    | none => exact .nil fun _ => id
    | last only => exact only.leads
    | more first separator => exact first.leads.append (.word separator (by simp))
  rw [List.append_assoc, List.cons_append]
  refine extend_along .call (by rw [opens]; rfl) along tight (by rw [Expression.generate])
    (leads.append (.word closes (by simp))) ?_
  have written : (Expression.generateAll arguments 0 >>= fun _ =>
      emitWith .call (UInt8.ofNat arguments.length)) =
      (Expression.generateAll arguments 0 >>= fun _ => pure arguments.length) >>= fun count =>
        emitWith .call (UInt8.ofNat count) := by
    rw [bind_assoc]
    rfl
  rw [written]
  exact (arguments_read given readGiven closes _).thenUniform fun count => .emitWith _ _

end Trailing

theorem Chain.readAlong {expression : Expression} (chain : Chain tokens expression level depth) :
    ReadAlong tokens expression level depth := by
  refine @Chain.rec (fun tokens expression level depth _ => ReadAlong tokens expression level depth)
    (fun tokens arguments depth _ => ReadGiven tokens arguments depth)
    ?number ?string ?literal ?reference ?grouping ?unary ?assign ?call ?binary ?and ?or
    ?none ?last ?more tokens expression level depth chain
  case number => exact fun kind denotes => number_along kind denotes
  case string => exact fun kind => string_along kind
  case literal => exact fun kind => literal_along kind
  case reference => exact fun kind => reference_along kind
  case grouping => exact fun opens inside closes along => grouping_along opens inside along closes
  case unary => exact fun kind operated tight along => unary_along kind operated along tight
  case assign =>
    exact fun target sign assigned along => assign_along target sign assigned along
  case call =>
    exact fun _ tight opens given closes along readGiven =>
      call_along along tight opens given readGiven closes
  case binary =>
    exact fun _ tight kind right tighter along alongRight =>
      binary_along along tight kind right alongRight tighter
  case and =>
    exact fun _ tight kind right tighter along alongRight =>
      and_along along tight kind right alongRight tighter
  case or =>
    exact fun _ tight kind right tighter along alongRight =>
      or_along along tight kind right alongRight tighter
  case none => exact fun _ _ _ isEmpty => absurd rfl isEmpty
  case last => exact fun only along => last_given only along
  case more =>
    exact fun first separator others along readGiven =>
      more_given first along separator others readGiven

theorem Chain.expression_follows {rest : List Token} {expression : Expression} {levels : Nat}
    {compiler writer : Compiler} {next : Token} (chain : Chain tokens expression level depth)
    (deep : maxNesting < levels + compiler.nesting)
    (streamEq : compiler.stream = tokens ++ next :: rest) (stops : next.kind.trailing? = none)
    (noTarget : next.kind ≠ .equal) (alike : compiler.Alike writer) :
    Follows (compiler.nesting + (depth + 1) ≤ maxNesting ∧ next.Readable) Eq compiler tokens
      ((Parser.level levels).expression compiler) (expression.generate writer) := by
  by_cases shallow : compiler.nesting ≤ maxNesting
  · have readable : compiler.current.Readable := by
      rcases chain.exists_first with ⟨first, more, form, rfl, starts⟩
      rw [(List.cons.inj streamEq).1]
      exact Token.readable_of_leading starts
    exact chain.readAlong.expression chain.assignment_le ⟨rfl, streamEq, readable, deep, shallow⟩
      (Token.Kind.ends_of_none stops noTarget) alike
  · have failed : ∃ error, (Parser.level levels).expression compiler = .error error compiler := by
      cases levels with
      | zero => exact ⟨_, rfl⟩
      | succ below => exact ⟨_, if_neg (by omega)⟩
    rcases failed with ⟨error, failed⟩
    rw [failed]
    exact .ofError (by omega)

end Grammar

end StackScript
