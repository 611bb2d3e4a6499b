import StackScript.Proofs.Parsing.Statement

/-!
# Programs are read as they are derived

Declarations follow each other up to a closing brace or the end of the text. From this, every phrase
of the grammar is read as it is derived, and in the end a whole program is.
-/

namespace StackScript

open Grammar

namespace Grammar

open Compile

variable {last closing opening ending name brace : Token} {tokens names bound inside : List Token}
  {statement body met : Statement} {depth : Nat} {stops : Token.Kind → Prop}
  {parameters : List String} {reader : Compiler} {kind : Token.Kind}

/-! ## Declarations in a row -/

def EndsRow (kind : Token.Kind) : Prop :=
  kind = .rightBrace ∨ kind = .endOfText

/-- Whether declarations up to the end of a block or a text are read one after the other. -/
def ReadAll (tokens : List Token) (body : Statement) (depth : Nat) : Prop :=
  ∀ ⦃levels : Nat⦄ ⦃compiler writer : Compiler⦄ ⦃last next : Token⦄ ⦃rest bound : List Token⦄
    ⦃more : Compile Bool⦄ ⦃α β : Type⦄ ⦃fits : Prop⦄
    ⦃good : α → Compiler → β → Compiler → Prop⦄ ⦃after : Unit → Compile α⦄
    ⦃onward : Unit → Compile β⦄,
    compiler.Faces last levels tokens next rest → EndsRow next.kind → compiler.Alike writer →
    (∀ reader : Compiler, opensDeclaration reader.current.kind = true →
      more reader = .ok true reader) →
    tokens.length ≤ bound.length →
    (∀ final writer' bound', compiler.Passes tokens final → final.Alike writer' →
      Agrees fits good
        ((repeatWithin more (declaration (.level levels)) bound' >>= after) final)
        (onward () writer')) →
    Agrees (compiler.nesting + depth ≤ maxNesting ∧ fits) good
      ((repeatWithin more (declaration (.level levels)) bound >>= after) compiler)
      ((body.generate >>= onward) writer)

theorem nothing_readAll : ReadAll [] .empty 0 := by
  intro levels compiler writer last next rest bound more α β fits good after onward faces _ alike
    _ _ further
  rw [Statement.generate, pure_bind]
  exact (further compiler writer bound (.refl compiler) alike).congr (by simp [faces.shallow])

theorem Phrase.leads (phrase : Phrase .sequence tokens body depth) :
    Leads (fun kind => kind ≠ .keyword .elifKw ∧ kind ≠ .keyword .elseKw) tokens EndsRow := by
  cases phrase with
  | nothing =>
    refine .nil fun kind closes => ?_
    rcases closes with rfl | rfl <;> simp
  | more declares _ =>
    rcases declares.exists_first_declaration with ⟨head, tail, rfl, opens⟩
    refine fun _ _ => ⟨⟨?_, ?_⟩, fun _ => readable_of_opens opens⟩
    · intro isElif
      rw [List.cons_append, List.headD_cons] at isElif
      rw [isElif] at opens
      cases opens
    · intro isElse
      rw [List.cons_append, List.headD_cons] at isElse
      rw [isElse] at opens
      cases opens

theorem EndsRow.readable {token : Token} (closes : EndsRow token.kind) : token.Readable := by
  rcases closes with isBrace | isEnd
  · exact Token.readable_of_eq isBrace (by simp)
  · exact Token.readable_of_eq isEnd (by simp)

theorem Phrase.exists_next (phrase : Phrase .sequence tokens body depth)
    {next : Token} (closes : EndsRow next.kind) (rest : List Token) :
    ∃ head tail, tokens ++ next :: rest = head :: tail ∧ head.Readable ∧
      head.kind ≠ .keyword .elifKw ∧ head.kind ≠ .keyword .elseKw := by
  rcases phrase.leads next closes with ⟨ahead, readable⟩
  refine ⟨tokens.headD next, (tokens ++ next :: rest).tail, ?_, readable closes.readable, ahead⟩
  cases tokens <;> rfl

theorem more_readAll {first others : List Token} {rest : Statement} {inner : Nat}
    (declares : Phrase .declaration first statement depth)
    (follows : Phrase .sequence others rest inner)
    (read : ∀ last, ReadBy last declaration first statement.generate depth statement.StopsAt)
    (readRest : ReadAll others rest inner) :
    ReadAll (first ++ others) (.sequence statement rest) (max depth inner) := by
  intro levels compiler writer last next behind bound more α β fits good after onward faces closes
    alike goesOn enough further
  rcases follows.leads next closes with ⟨ahead, readable⟩
  cases bound with
  | nil =>
    rcases declares.exists_first_declaration with ⟨opening, firsts, rfl, _⟩
    simp at enough
  | cons extra bound =>
    have isMore : more compiler = .ok true compiler := by
      rcases declares.exists_first_declaration with ⟨opening, firsts, rfl, opens⟩
      exact goesOn compiler (by rw [faces.current_eq]; exact opens)
    have parts : compiler.nesting + max depth inner ≤ maxNesting ∧ fits ↔
        (compiler.nesting + depth ≤ maxNesting ∧ (others.headD next).Readable) ∧
          compiler.nesting + inner ≤ maxNesting ∧ fits := by
      have readable := readable closes.readable
      rw [← Nat.add_max_add_left, Nat.max_le]
      tauto
    rw [repeatWithin, bind_assoc, bind_of_ok isMore, Statement.generate, bind_assoc]
    simp only [if_true, bind_assoc]
    apply Agrees.congr _ parts.symm
    apply Agrees.bind (read last faces.front (fun _ => ahead) alike)
    rintro ⟨_, readable⟩ _ _ middle written _ ⟨_, passes, alikeMiddle⟩
    rw [← passes.nesting_eq]
    apply readRest (faces.behind passes readable) closes alikeMiddle goesOn
    · rcases declares.exists_first_declaration with ⟨opening, firsts, rfl, _⟩
      simp only [List.length_append, List.length_cons] at enough
      omega
    · intro final written bound' passesRest alikeFinal
      exact further final written bound' (passes.trans passesRest) alikeFinal

theorem blockContinues_of_opens (opens : opensDeclaration reader.current.kind = true) :
    blockContinues reader = .ok true reader := by
  have goesOn : (decide (reader.current.kind ≠ .rightBrace) &&
      decide (reader.current.kind ≠ .endOfText)) = true := by
    generalize reader.current.kind = kind at opens
    cases kind with
    | rightBrace | endOfText => cases opens
    | _ => rfl
  change EStateM.Result.ok _ reader = _
  rw [goesOn]

theorem repeatWithin_stop {more : Compile Bool} {round : Compile Unit} {last after : Compiler}
    (stop : more last = .ok false after) : repeatWithin more round bound last = .ok () after := by
  cases bound with
  | nil =>
    rw [repeatWithin, bind_of_ok stop]
    rfl
  | cons extra bound =>
    rw [repeatWithin, bind_of_ok stop]
    rfl

theorem ReadAll.block (read : ReadAll tokens body depth) (closes : closing.kind = .rightBrace) :
    ReadBy last block (tokens ++ [closing]) body.generate depth stops := by
  intro levels compiler writer next rest faces stopped alike
  rw [← bind_pure body.generate]
  change Agrees _ _ ((repeatWithin blockContinues (declaration (.level levels))
      compiler.upcoming >>=
    fun _ => expect .rightBrace .braceAfterBlock) compiler) _
  apply read faces.front (Or.inl closes) alike (fun _ => blockContinues_of_opens)
    faces.front.length_le
  intro final writer' bound' passes alikeFinal
  have facesFinal := faces.behind passes (Token.readable_of_eq closes (by simp))
  have stop : blockContinues final = .ok false final := by
    change EStateM.Result.ok (decide (final.current.kind ≠ .rightBrace) &&
      decide (final.current.kind ≠ .endOfText)) final = _
    rw [facesFinal.current_eq, List.headD_cons, closes]
    rfl
  rw [bind_of_ok (repeatWithin_stop stop)]
  refine Agrees.imp (Agrees.congr (ReadBy.expect closes facesFinal stopped alikeFinal)
    (and_iff_right facesFinal.shallow)) ?_
  exact fun _ _ _ _ holds => ⟨holds.1, passes.trans holds.2.1, holds.2.2⟩

theorem Phrase.leads_block (phrase : Phrase .sequence tokens body depth)
    (closes : closing.kind = .rightBrace) : Leads (fun _ => True) (tokens ++ [closing]) stops := by
  have ahead : Leads (fun _ => True) tokens EndsRow := fun next stopped =>
    ⟨trivial, (phrase.leads next stopped).2⟩
  exact ahead.append fun _ _ => ⟨Or.inl closes, fun _ => Token.readable_of_eq closes (by simp)⟩

theorem block_read (opens : opening.kind = .leftBrace)
    (inside : Phrase .sequence tokens body depth) (closes : closing.kind = .rightBrace)
    (read : ReadAll tokens body depth) :
    ReadBy last Compile.statement (opening :: tokens ++ [closing]) (Statement.block body).generate
      depth stops := by
  rw [Statement.generate]
  exact .introduced opens (inside.leads_block closes) (.uniformThen (.openScope .block) fun _ =>
    (read.block closes).thenUniform fun _ => .closeScope) fun _ => rfl

/-! ## Functions -/

theorem parameter_read (named : name.kind = .identifier) :
    ReadBy last (fun _ => parameter ()) [name] (parameterAs name.lexeme) 0 stops := by
  intro levels compiler writer next rest faces stopped alike
  have reads : parameter () compiler = (if writer.draft.arity = maxArguments then
      failAhead .tooManyParameters else (modify (·.onDraft fun draft =>
        { draft with arity := draft.arity + 1 })) >>= fun _ =>
          declare .parameterName >>= define : Compile Unit) compiler := by
    rw [← alike.draft.arity_eq]
    rfl
  have writes : parameterAs name.lexeme writer = (if writer.draft.arity = maxArguments then
      fail .tooManyParameters else (modify (·.onDraft fun draft =>
        { draft with arity := draft.arity + 1 })) >>= fun _ =>
          declareAs name.lexeme >>= define : Compile Unit) writer := rfl
  dsimp only
  rw [reads, writes]
  split
  · exact fun _ => rfl
  · exact ReadBy.uniformThen .addParameter
      (fun _ => (declare_read named).thenUniform fun binding => .define binding) faces stopped alike

theorem Separated.starts_parameter (takes : Separated Parameter names parameters)
    (given : parameters ≠ []) : Starts (· = .identifier) names := by
  cases takes with
  | none => exact absurd rfl given
  | last only =>
    rcases only with ⟨name, rfl, named, _⟩
    exact ⟨name, [], rfl, named, Token.readable_of_eq named (by simp)⟩
  | more first _ _ =>
    rcases first with ⟨name, rfl, named, _⟩
    exact ⟨name, _, rfl, named, Token.readable_of_eq named (by simp)⟩

theorem separated_read (takes : Separated Parameter names parameters) (given : parameters ≠ [])
    (enough : names.length ≤ bound.length) :
    ReadBy last (fun _ => separatedWithin parameter bound ()) names (parameters.forM parameterAs) 0
      (· = .rightParen) := by
  induction takes generalizing last bound with
  | none => exact absurd rfl given
  | last only =>
    rcases only with ⟨name, rfl, named, rfl⟩
    have alone : [name.lexeme].forM parameterAs = parameterAs name.lexeme := bind_pure_unit
    rw [alone]
    refine .lastItem (parameter_read named) ?_
    rintro _ rfl
    simp
  | more first separator others ih =>
    rcases first with ⟨name, rfl, named, rfl⟩
    exact .moreItems (parameter_read named) separator
      (others.starts_parameter (List.cons_ne_nil _ _)).readable
      (fun _ _ enough => ih (List.cons_ne_nil _ _) enough) enough

theorem parameters_read (opens : opening.kind = .leftParen)
    (takes : Separated Parameter names parameters) (closes : closing.kind = .rightParen) :
    ReadBy last (fun _ => Compile.parameters) (opening :: names ++ [closing])
      (parameters.forM parameterAs) 0 stops := by
  by_cases given : parameters = []
  · subst given
    cases takes
    exact .expected opens (.word closes (by simp)) (.lookahead (· = .rightParen)
      (fun _ _ => closes) (by rintro parser _ rfl; rfl) (.expect closes))
  · have starts := takes.starts_parameter given
    exact .expected opens starts.append.readable (.lookahead (· = .identifier)
      (fun next stopped => (starts.append.leads next stopped).1) (by rintro parser _ rfl; rfl)
      ((ReadBy.upcoming fun bound => separated_read takes given).thenExpect closes rfl (by simp)))

theorem uniform_endFunction : Uniform .alike (do emitConstant (.function (← endFunction))) :=
  fun _ _ like => (Uniform.endFunction_paired like like.draft.function).bind
    fun _ _ _ _ same like => Uniform.emitConstant_paired (.function same) like

theorem functionBody_read (opens : opening.kind = .leftParen)
    (takes : Separated Parameter names parameters) (closes : closing.kind = .rightParen)
    (begins : brace.kind = .leftBrace) (does : Phrase .sequence inside body depth)
    (read : ReadAll inside body depth) (ends : ending.kind = .rightBrace) :
    ReadBy name functionBody (opening :: names ++ closing :: brace :: inside ++ [ending])
      (do
        beginFunctionAs name.lexeme
        parameters.forM parameterAs
        body.generate
        emitReturn
        emitConstant (.function (← endFunction))) depth stops := by
  have tokensEq : opening :: names ++ closing :: brace :: inside ++ [ending] =
      (opening :: names ++ [closing]) ++ brace :: (inside ++ [ending]) := by simp
  rw [tokensEq]
  have body : ReadBy name (fun parser => beginFunctionAs name.lexeme >>= fun _ =>
      Compile.parameters >>= fun _ => expect .leftBrace .braceBeforeBody >>= fun _ =>
      block parser >>= fun _ => emitReturn >>= fun _ => endFunction >>= fun function =>
      emitConstant (.function function))
      ((opening :: names ++ [closing]) ++ brace :: (inside ++ [ending]))
      _ depth stops :=
    .uniformThen (.beginFunctionAs name.lexeme) fun _ =>
      (parameters_read opens takes closes).followed (.word begins (by simp)) fun _ _ =>
      .expected begins (does.leads_block ends) ((read.block ends).thenUniform fun _ =>
        .bind .emitReturn fun _ => uniform_endFunction)
  intro levels compiler writer next rest faces
  have here := @body levels compiler writer next rest faces
  rw [← faces.previous_eq] at here ⊢
  exact here

theorem function_read {word : Token} (introduces : word.kind = .keyword .funKw)
    (named : name.kind = .identifier) (opens : opening.kind = .leftParen)
    (takes : Separated Parameter names parameters) (closes : closing.kind = .rightParen)
    (begins : brace.kind = .leftBrace) (does : Phrase .sequence inside body depth)
    (read : ReadAll inside body depth) (ends : ending.kind = .rightBrace) :
    ReadBy last declaration
      (word :: name :: opening :: names ++ closing :: brace :: inside ++ [ending])
      (Statement.funDeclaration name.lexeme parameters body).generate (depth + 1) stops := by
  have nested : ReadBy name Parser.functionBody
      (opening :: names ++ closing :: brace :: inside ++ [ending]) _ (depth + 1) stops :=
    (functionBody_read opens takes closes begins does read ends).nested (fun _ => rfl) fun _ => rfl
  have whole : ReadBy last declaration
      (word :: name :: opening :: names ++ closing :: brace :: inside ++ [ending]) _ (depth + 1)
      stops :=
    .introduced introduces (.word named (by simp)) ((declare_read named).followed
      (.word opens (by simp)) fun binding _ => .uniformThen (.makeVisible binding) fun _ =>
        nested.thenUniform fun _ => .define binding) fun _ => rfl
  simpa only [Statement.generate, bind_assoc] using whole

/-! ## Phrases -/

def Read : Category → List Token → Statement → Nat → Prop
  | .statement, tokens, statement, depth => ∀ last,
    ReadBy last Parser.statement tokens statement.generate depth statement.StopsAt
  | .conditional, tokens, statement, depth => ∀ last expectation,
    ReadBy last (conditional · expectation) tokens statement.generate depth statement.StopsAt
  | .declaration, tokens, statement, depth => ∀ last,
    ReadBy last declaration tokens statement.generate depth statement.StopsAt
  | .sequence, tokens, statement, depth => ReadAll tokens statement depth

theorem read_statement
    (read : ∀ last, ReadBy last Compile.statement tokens statement.generate depth
      statement.StopsAt) :
    Read .statement tokens statement (depth + 1) :=
  fun last => (read last).nested (fun _ => rfl) fun _ => rfl

theorem plain_read (plain : Phrase .statement tokens statement depth)
    (read : ReadBy last Parser.statement tokens statement.generate depth stops) :
    ReadBy last declaration tokens statement.generate depth stops := by
  refine .lookahead (opensStatement · = true)
    (fun next stopped => (plain.starts.leads next stopped).1)
    ?_ read
  intro parser kind opens
  cases kind with
  | keyword word => cases word <;> first | rfl | cases opens
  | _ => rfl

theorem stopsAt_unmet {condition : Expression} {unmet : Statement}
    (stopped : (Statement.conditional condition met unmet).StopsAt kind) : unmet.StopsAt kind := by
  intro isOpen
  apply stopped
  cases unmet with
  | empty => rfl
  | _ => exact isOpen

theorem leads_of_closed {word : Token} (closed : met.isOpen = false) (introduces : word.kind = kind)
    (readable : ∀ reason, kind ≠ .error reason) : Leads met.StopsAt (word :: tokens) stops := by
  refine fun _ _ => ⟨?_, fun _ => Token.readable_of_eq introduces readable⟩
  intro isOpen
  rw [closed] at isOpen
  cases isOpen

theorem Phrase.read {category : Category}
    (phrase : Phrase category tokens statement depth) :
    Read category tokens statement depth := by
  induction phrase with
  | expression given ends => exact read_statement fun _ => expression_read given ends
  | print introduces given ends => exact read_statement fun _ => print_read introduces given ends
  | block opens inside closes ih => exact read_statement fun _ => block_read opens inside closes ih
  | branch introduces follows ih =>
    exact read_statement fun _ => branch_read introduces follows (ih _ _)
  | whileLoop introduces opens tested closes repeated ih =>
    exact read_statement fun _ => whileLoop_read introduces opens tested closes repeated ih
  | forLoop introduces opens starts tested advances repeated ih =>
    exact read_statement fun _ => forLoop_read introduces opens starts tested advances repeated ih
  | breakLoop introduces ends => exact read_statement fun _ => breakLoop_read introduces ends
  | continueLoop introduces ends => exact read_statement fun _ => continueLoop_read introduces ends
  | returnValue introduces given => exact read_statement fun _ => returnValue_read introduces given
  | @alone _ _ _ _ condition met _ _ opens tested closes chosen ih =>
    intro last expectation
    have noBranch : ∀ kind, (Statement.conditional condition met .empty).StopsAt kind →
        kind ≠ .keyword .elifKw ∧ kind ≠ .keyword .elseKw := fun _ stopped => stopped rfl
    rw [← List.append_nil (_ ++ _), ← Nat.max_zero (max _ _)]
    exact conditional_read opens tested closes chosen ih
      (fun _ => otherBranches_none noBranch) (.nil fun kind stopped _ => noBranch kind stopped)
  | otherwise opens tested closes chosen closed introduces other ihMet ihUnmet =>
    intro last expectation
    exact conditional_read opens tested closes chosen ihMet
      (fun _ => .introduced introduces other.starts.readable
        ((ihUnmet _).imp fun _ => stopsAt_unmet) fun _ => rfl)
      (leads_of_closed closed introduces (by simp))
  | alternative opens tested closes chosen closed introduces other ihMet ihUnmet =>
    intro last expectation
    rcases other.exists_opening with ⟨opening, more, rfl, opensToo⟩
    exact conditional_read opens tested closes chosen ihMet
      (fun _ => .introduced introduces (.word opensToo (by simp))
        (((ihUnmet _ _).imp fun _ => stopsAt_unmet).nested (fun _ => rfl) fun _ => rfl)
        fun _ => rfl)
      (leads_of_closed closed introduces (by simp))
  | statement plain ih => exact fun last => plain_read plain (ih last)
  | varDeclaration introduces declares =>
    exact fun _ => .introduced introduces declares.starts.leads (variable_read declares)
      fun _ => rfl
  | funDeclaration introduces named opens takes closes begins does ends ih =>
    exact fun _ => function_read introduces named opens takes closes begins does ih ends
  | nothing => exact nothing_readAll
  | more declares follows ihFirst ihRest => exact more_readAll declares follows ihFirst ihRest

/-! ## Whole programs -/

theorem more_of_opens (opens : opensDeclaration reader.current.kind = true) :
    (do return !(← accept .endOfText) : Compile Bool) reader = .ok true reader := by
  have goesOn : reader.current.kind ≠ .endOfText := by
    intro isEnd
    rw [isEnd] at opens
    cases opens
  rw [bind_of_ok (accept_of_ne goesOn)]
  rfl

theorem more_at_end (streamEq : reader.stream = [ending]) (isEnd : ending.kind = .endOfText) :
    (do return !(← accept .endOfText) : Compile Bool) reader =
      .ok false { reader with previous := ending } := by
  rcases List.cons.inj streamEq with ⟨currentEq, upcomingEq⟩
  have advanced : advance reader = .ok () { reader with previous := ending } := by
    simp only [advance, Compiler.shift, upcomingEq, currentEq, isEnd]
  have accepted : accept .endOfText reader = .ok true { reader with previous := ending } := by
    change (if reader.current.kind = .endOfText then (advance >>= fun _ => pure true)
      else pure false : Compile Bool) reader = _
    rw [if_pos (by rw [currentEq, isEnd]), bind_of_ok advanced]
    rfl
  rw [bind_of_ok accepted]
  rfl

theorem finish_agrees {compiler writer : Compiler} (alike : compiler.Alike writer) :
    Agrees True (fun script _ other _ => script.Alike other) (finish compiler) (finish writer) :=
  (finish_paired alike.like).follows.imp fun _ _ _ _ good => good.1

/-- The script that is given in the end is that of the tree, if the program is shallow enough. -/
theorem Nested.Program.agrees (program : Nested.Program tokens body depth) :
    Agrees (depth ≤ maxNesting) (fun script _ other _ => script.Alike other)
      (Compile.program (.ofTokens tokens)) (body.generateScript (.ofTokens [])) := by
  rcases program with ⟨front, ending, rfl, isEnd, phrase⟩
  have closes : EndsRow ending.kind := Or.inr isEnd
  have readable := (phrase.leads ending closes).2 closes.readable
  have faces : (Compiler.ofTokens (front ++ [ending])).Faces .unread (maxNesting + 1)
      ([.unread] ++ front) ending [] :=
    ⟨rfl, rfl, fun _ => Token.Kind.noConfusion, Nat.lt_succ_self _, Nat.zero_le _⟩
  have start : ReadBy .unread (fun _ => advance) [.unread] (pure ()) 0 fun _ => True := .advance
  have alikeStart : (Compiler.ofTokens (front ++ [ending])).Alike (.ofTokens []) := ⟨.refl _, .nil⟩
  have parts : depth ≤ maxNesting ↔ (0 + 0 ≤ maxNesting ∧ (front.headD ending).Readable) ∧
      0 + depth ≤ maxNesting ∧ True := by
    simp only [readable, Nat.zero_add, Nat.zero_le, and_true, true_and]
  have written : body.generateScript = (pure () : Compile Unit) >>= fun _ =>
      body.generate >>= fun _ => finish := by rw [pure_bind]; rfl
  rw [written]
  apply Agrees.congr _ parts.symm
  apply Agrees.bind (start faces.front trivial alikeStart)
  rintro _ _ _ begun writer _ ⟨_, passes, alike⟩
  have facesBegun := faces.behind passes readable
  have nestingEq : begun.nesting = 0 := passes.nesting_eq
  rw [← nestingEq, repeatWhile, bind_assoc]
  apply phrase.read facesBegun closes alike (fun _ => more_of_opens) facesBegun.length_le
  intro last written bound passesFront alikeLast
  have whole := passesFront.stream_eq
  rw [facesBegun.stream_eq] at whole
  rw [bind_of_ok (repeatWithin_stop (more_at_end (List.append_cancel_left whole).symm isEnd))]
  exact finish_agrees ⟨alikeLast.draft, alikeLast.enclosing⟩

end Grammar

end StackScript
