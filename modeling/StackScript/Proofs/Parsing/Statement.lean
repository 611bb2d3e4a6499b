import StackScript.Proofs.Climbing
import StackScript.Proofs.Parsing.Expression

/-!
# Statements are read as they are derived

Where a statement of the grammar is ahead, the compiler reads it and writes its tree. A conditional
without other branches has to be followed by something that is none.
-/

namespace StackScript

open Grammar

/-- Whether a token ends a statement. -/
def Statement.StopsAt (statement : Statement) (kind : Token.Kind) : Prop :=
  statement.isOpen = true → kind ≠ .keyword .elifKw ∧ kind ≠ .keyword .elseKw

namespace Grammar

open Compile

variable {α β : Type} {last word semicolon opening closing : Token}
  {tokens others inside test : List Token} {expression condition : Expression}
  {statement body : Statement} {depth inner : Nat} {stops : Token.Kind → Prop} {kind : Token.Kind}
  {expectation : Expectation}

/-! ## How phrases start -/

section Starts

variable {name : String} {initial given : Option Expression}

theorem Whole.starts (whole : Whole tokens expression depth) :
    Starts opensExpression tokens :=
  starts_of_first whole.exists_first

theorem Variable.starts (declares : Variable tokens name initial depth) :
    Starts (fun _ => True) tokens := by
  rcases declares.exists_first with ⟨first, rest, tokensEq, named⟩
  exact ⟨first, rest, tokensEq, trivial, Token.readable_of_eq named (by simp)⟩

theorem Phrase.starts (phrase : Phrase .statement tokens statement depth) :
    Starts (opensStatement · = true) tokens := by
  rcases phrase.exists_first with ⟨first, rest, tokensEq, opens⟩
  exact ⟨first, rest, tokensEq, opens, readable_of_opens (opensDeclaration_of_opensStatement opens)⟩

end Starts

/-! ## Expressions that stand by themselves -/

theorem Whole.read (whole : Whole tokens expression depth) :
    ReadBy last Parser.expression tokens expression.generate depth
      (Token.Kind.Ends .assignment) := by
  rcases whole with ⟨level, inner, chain, rfl⟩
  exact chain.readAlong.expression chain.assignment_le

theorem Whole.read_expect {ending : Token} {after : Unit → Compile α}
    (whole : Whole tokens expression depth) (found : ending.kind = kind)
    (ends : kind.Ends .assignment) (readable : ∀ reason, kind ≠ .error reason)
    (uniform : ∀ value, Uniform .alike (after value)) :
    ReadBy last (fun parser => parser.expression >>= fun _ => expect kind expectation >>= after)
      (tokens ++ [ending]) (expression.generate >>= after) depth stops := by
  simp only [← bind_assoc]
  exact (whole.read.thenExpect found ends readable).thenUniform uniform

theorem ends_semicolon : (Token.Kind.semicolon).Ends .assignment :=
  Token.Kind.ends_of_none rfl (by simp)

theorem ends_rightParen : (Token.Kind.rightParen).Ends .assignment :=
  Token.Kind.ends_of_none rfl (by simp)

/-! ## Plain statements -/

theorem expressionStatement_read (given : Whole tokens expression depth)
    (ends : semicolon.kind = .semicolon) :
    ReadBy last expressionStatement (tokens ++ [semicolon])
      (Statement.expression expression).generate depth stops := by
  rw [Statement.generate]
  exact given.read_expect ends ends_semicolon (by simp) fun _ => .emit .pop

theorem expression_read (given : Whole tokens expression depth)
    (ends : semicolon.kind = .semicolon) :
    ReadBy last Compile.statement (tokens ++ [semicolon])
      (Statement.expression expression).generate depth stops := by
  refine .lookahead opensExpression (fun next stopped => (given.starts.append.leads next stopped).1)
    ?_ (expressionStatement_read given ends)
  rintro parser kind ⟨form, starts⟩
  cases kind with
  | keyword word => cases word <;> first | rfl | cases starts
  | leftBrace => cases starts
  | _ => rfl

theorem print_read (introduces : word.kind = .keyword .printKw)
    (given : Whole tokens expression depth) (ends : semicolon.kind = .semicolon) :
    ReadBy last Compile.statement (word :: tokens ++ [semicolon])
      (Statement.print expression).generate depth stops := by
  rw [Statement.generate]
  exact .introduced introduces given.starts.append.readable
    (given.read_expect ends ends_semicolon (by simp) fun _ => .emit .print) fun _ => rfl

theorem branch_read (introduces : word.kind = .keyword .ifKw)
    (follows : Phrase .conditional tokens statement depth)
    (read : ReadBy word (conditional · .parenAfterIf) tokens statement.generate depth stops) :
    ReadBy last Compile.statement (word :: tokens) statement.generate depth stops := by
  rcases follows.exists_opening with ⟨opening, more, rfl, opens⟩
  exact .introduced introduces (.word opens (by simp)) read fun _ => rfl

theorem inLoop_read {error : CompileError.Kind} {after : Scope → Compile Unit}
    (ends : semicolon.kind = .semicolon) (uniform : ∀ loop, Uniform .alike (after loop)) :
    ReadBy last (fun _ => do
        match Scope.innermostLoop? (← get).draft.scopes with
        | none => fail error
        | some loop =>
          expect .semicolon expectation
          after loop)
      [semicolon] (do
        match Scope.innermostLoop? (← get).draft.scopes with
        | none => fail error
        | some loop => after loop) 0 stops := by
  intro levels compiler writer next rest faces stopped alike
  dsimp only
  rw [get_bind, get_bind, alike.draft.scopes_eq]
  cases Scope.innermostLoop? writer.draft.scopes with
  | none => exact fun _ => rfl
  | some loop =>
    exact ReadBy.expected ends (.nil fun _ _ => trivial) (.ofUniform (uniform loop)) faces stopped
      alike

theorem breakLoop_read (introduces : word.kind = .keyword .breakKw)
    (ends : semicolon.kind = .semicolon) :
    ReadBy last Compile.statement [word, semicolon] Statement.breakLoop.generate 0 stops := by
  rw [Statement.generate]
  exact .introduced introduces (.word ends (by simp))
    (inLoop_read ends fun loop => .leave loop) fun _ => rfl

theorem continueLoop_read (introduces : word.kind = .keyword .continueKw)
    (ends : semicolon.kind = .semicolon) :
    ReadBy last Compile.statement [word, semicolon] Statement.continueLoop.generate 0 stops := by
  rw [Statement.generate]
  exact .introduced introduces (.word ends (by simp))
    (inLoop_read ends fun loop => .again loop) fun _ => rfl

/-! ## Clauses -/

theorem Whole.head_ne (whole : Whole tokens expression depth)
    (other : kind.leading? = none) (next : Token) (stopped : stops next.kind) :
    ((tokens ++ others).headD next).kind ≠ kind := by
  have starts : Starts opensExpression (tokens ++ others) := whole.starts.append
  rcases (starts.leads next stopped).1 with ⟨form, starts⟩
  rintro rfl
  rw [other] at starts
  cases starts

section Clauses

variable {given : Option Expression}

theorem result_read (clause : Clause .semicolon tokens given depth) :
    ReadBy last (fun inner => do
        if ← accept .semicolon then
          emitReturn
        else
          inner.expression
          expect .semicolon .semicolonAfterReturnValue
          emit .ret)
      tokens (Statement.generateResult given) depth stops := by
  cases clause with
  | missing ends => exact .accepted ends (.nil fun _ _ => trivial) (.ofUniform .emitReturn)
  | present whole ends =>
    exact .declined (whole.head_ne rfl)
      (whole.read_expect ends ends_semicolon (by simp) fun _ => .emit .ret)

theorem Clause.starts {ending : Token.Kind} (clause : Clause ending tokens given depth)
    (readable : ∀ reason, ending ≠ .error reason) : Starts (fun _ => True) tokens := by
  rcases clause.exists_first readable with ⟨first, rest, tokensEq, readableFirst⟩
  exact ⟨first, rest, tokensEq, trivial, readableFirst⟩

theorem returnValue_read (introduces : word.kind = .keyword .returnKw)
    (clause : Clause .semicolon tokens given depth) :
    ReadBy last Compile.statement (word :: tokens) (Statement.returnValue given).generate depth
      stops := by
  rw [Statement.generate]
  refine .introduced introduces (clause.starts (by simp)).leads ?_ fun _ => rfl
  intro levels compiler writer next rest faces stopped alike
  rw [returnStatement, get_bind, get_bind, alike.draft.kind_eq]
  cases writer.draft.kind with
  | script => exact fun _ => rfl
  | function => exact result_read clause faces stopped alike

theorem condition_read (clause : Clause .semicolon tokens given depth) :
    ReadBy last forCondition tokens (Statement.generateCondition given) depth stops := by
  cases clause with
  | missing ends => exact .accepted ends (.nil fun _ _ => trivial) (.ofUniform (.pure none))
  | present whole ends =>
    exact .declined (whole.head_ne rfl) (whole.read_expect ends ends_semicolon (by simp) fun _ =>
      .bind (.emitJump _) fun exit => .bind (.emit _) fun _ => .pure (some exit))

theorem increment_read (start : Nat) (clause : Clause .rightParen tokens given depth) :
    ReadBy last (forIncrement · start) tokens (Statement.generateIncrement start given) depth
      stops := by
  cases clause with
  | missing ends => exact .accepted ends (.nil fun _ _ => trivial) (.ofUniform (.pure start))
  | present whole ends =>
    refine .declined (whole.head_ne rfl) (.uniformThen (.emitJump .jump) fun body =>
      .uniformThen .codeSize fun again => ?_)
    simp only [← bind_assoc]
    exact ((((whole.read.thenUniform fun _ => .emit .pop).thenExpect ends ends_rightParen
      (by simp)).thenUniform fun _ => .emitLoop start).thenUniform fun _ => .patchJump
      body).thenUniform fun _ => .pure again

end Clauses

/-! ## Variables -/

theorem declare_read {name : Token} (named : name.kind = .identifier) :
    ReadBy last (fun _ => declare expectation) [name] (declareAs name.lexeme) 0 stops := by
  rw [declare_eq]
  exact .expected named (.nil fun _ _ => trivial) (.lastLexeme (.ofUniform (.declareAs _)))

theorem variable_read {name : String} {initial : Option Expression}
    (declares : Variable tokens name initial depth) :
    ReadBy last variableDeclaration tokens (Statement.varDeclaration name initial).generate depth
      stops := by
  rw [Statement.generate]
  cases declares with
  | @plain name semicolon named ends =>
    refine (declare_read named).followed (.word ends (by simp)) fun binding _ =>
      .declined ?_ (.uniformThen (.emit .loadNil) fun _ =>
        .expected ends (.nil fun _ _ => trivial) (.ofUniform (.define binding)))
    intro next stopped
    change semicolon.kind ≠ .equal
    rw [ends]
    simp
  | initialized named sign value ends =>
    exact (declare_read named).followed (.word sign (by simp)) fun binding _ =>
      .accepted sign value.starts.append.readable
        (value.read_expect ends ends_semicolon (by simp) fun _ => .define binding)

/-! ## Loops -/

theorem Initial.starts (starts : Initial tokens statement depth) :
    Starts (fun _ => True) tokens := by
  rcases starts.exists_first with ⟨first, rest, tokensEq, readable⟩
  exact ⟨first, rest, tokensEq, trivial, readable⟩

theorem initial_read (starts : Initial tokens statement depth) :
    ReadBy last forInitializer tokens statement.generate depth stops := by
  cases starts with
  | missing ends =>
    rw [Statement.generate]
    refine .lookahead (· = .semicolon) (fun _ _ => ends) ?_ .advance
    rintro parser _ rfl
    rfl
  | varDeclaration introduces declares =>
    exact .introduced introduces declares.starts.leads (variable_read declares) fun _ => rfl
  | expression given ends =>
    refine .lookahead opensExpression
      (fun next stopped => (given.starts.append.leads next stopped).1) ?_
      (expressionStatement_read given ends)
    rintro parser kind ⟨form, starts⟩
    cases kind with
    | keyword word => cases word <;> first | rfl | cases starts
    | semicolon => cases starts
    | _ => rfl

theorem whileLoop_read (introduces : word.kind = .keyword .whileKw)
    (opens : opening.kind = .leftParen) (tested : Whole test condition depth)
    (closes : closing.kind = .rightParen) (repeated : Phrase .statement inside body inner)
    (read : ∀ last, ReadBy last Parser.statement inside body.generate inner body.StopsAt) :
    ReadBy last Compile.statement (word :: opening :: test ++ closing :: inside)
      (Statement.whileLoop condition body).generate (max depth inner)
      (Statement.whileLoop condition body).StopsAt := by
  rw [Statement.generate]
  exact .introduced introduces (.word opens (by simp))
    (.uniformThen (.openScope .loop) fun _ => .uniformThen .codeSize fun start =>
      .expected opens tested.starts.append.readable
      (tested.read.expectedThen closes ends_rightParen (by simp)
        repeated.starts.readable
        (.uniformThen (.emitJump _) fun exit => .uniformThen (.emit _) fun _ =>
          (read closing).thenUniform fun _ => .bind (.emitLoop start) fun _ =>
            .bind (.patchJump exit) fun _ => .bind (.emit _) fun _ => .closeScope)))
    fun _ => rfl

theorem forLoop_read {start advance : List Token} {initial : Statement}
    {condition increment : Option Expression} {tests rounds : Nat}
    (introduces : word.kind = .keyword .forKw) (opens : opening.kind = .leftParen)
    (starts : Initial start initial depth)
    (tested : Clause .semicolon test condition tests)
    (advances : Clause .rightParen advance increment rounds)
    (repeated : Phrase .statement inside body inner)
    (read : ∀ last, ReadBy last Parser.statement inside body.generate inner body.StopsAt) :
    ReadBy last Compile.statement (word :: opening :: start ++ test ++ advance ++ inside)
      (Statement.forLoop initial condition increment body).generate
      (max (max depth tests) (max rounds inner))
      (Statement.forLoop initial condition increment body).StopsAt := by
  rw [Statement.generate, Nat.max_assoc, List.append_assoc, List.append_assoc]
  exact .introduced introduces (.word opens (by simp))
    (.uniformThen (.openScope .loop) fun _ => .expected opens starts.starts.append.leads
      ((initial_read starts).andThen (tested.starts (by simp)).append.leads fun _ _ =>
      .uniformThen .codeSize fun start =>
      (condition_read tested).andThen (advances.starts (by simp)).append.leads fun exit _ =>
      (increment_read start advances).andThen repeated.starts.readable
        fun again _ => .uniformThen (.onScopes (Scope.setLoopStart again)) fun _ =>
      (read _).thenUniform fun _ => .bind (.emitLoop again) fun _ => .bind (.forExit exit) fun _ =>
        .closeScope))
    fun _ => rfl

/-! ## Conditionals -/

theorem otherBranches_none
    (implies : ∀ kind, stops kind → kind ≠ .keyword .elifKw ∧ kind ≠ .keyword .elseKw) :
    ReadBy last otherBranches [] Statement.empty.generate 0 stops := by
  rw [Statement.generate]
  refine .lookahead stops (fun _ => id) ?_ (.ofUniform (.pure ()))
  intro parser kind stopped
  rcases implies kind stopped with ⟨noElif, noElse⟩
  cases kind with
  | keyword word => cases word <;> first | rfl | exact absurd rfl noElif | exact absurd rfl noElse
  | _ => rfl

theorem conditional_read {met unmet : Statement} {deeper : Nat} (opens : opening.kind = .leftParen)
    (tested : Whole test condition depth) (closes : closing.kind = .rightParen)
    (chosen : Phrase .statement inside met inner)
    (readMet : ∀ last, ReadBy last Parser.statement inside met.generate inner met.StopsAt)
    (readOthers : ∀ last, ReadBy last otherBranches others unmet.generate deeper stops)
    (leads : Leads met.StopsAt others stops) :
    ReadBy last (conditional · expectation) (opening :: test ++ closing :: inside ++ others)
      (Statement.conditional condition met unmet).generate
      (max (max depth inner) deeper) stops := by
  rw [Statement.generate, Nat.max_assoc, List.append_assoc]
  exact .expected opens tested.starts.append.readable
    (tested.read.expectedThen closes ends_rightParen (by simp)
      chosen.starts.append.readable
      (.uniformThen (.emitJump _) fun skip => .uniformThen (.emit _) fun _ =>
        (readMet closing).andThen leads fun _ _ => .uniformThen (.emitJump _) fun jump =>
        .uniformThen (.patchJump skip) fun _ => .uniformThen (.emit _) fun _ =>
        (readOthers _).thenUniform fun _ => .patchJump jump))

end Grammar

end StackScript
