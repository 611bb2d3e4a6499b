import StackScript.Proofs.Acceptance
import StackScript.Proofs.Relocation
import StackScript.Proofs.Spacing
import StackScript.Proofs.UniqueTree

/-!
# The two forms of a loop

A loop with a condition alone has two forms, one with the word `while` and one with three clauses,
of which the first and the last are missing. A text compiles with its loops in either form, to the
same code.
-/

namespace StackScript

open Compile

/-! ## Code -/

def Compiler.SameScopes (compiler compiler' : Compiler) : Prop :=
  compiler'.draft.scopes = compiler.draft.scopes

instance : Untouched Compiler.SameScopes :=
  ⟨fun _ => rfl, fun first second => second.trans first, fun _ _ kept => kept _⟩

namespace Expression

theorem generateAll_quiet {arguments : List Expression}
    (each : ∀ argument ∈ arguments, Quiet Compiler.SameScopes argument.generate) (count : Nat) :
    Quiet Compiler.SameScopes (generateAll arguments count) := by
  induction arguments generalizing count with
  | nil => exact .ofPure ()
  | cons first rest ih =>
    apply (each first (by simp)).bind
    intro _
    split
    · exact .ofFail _
    · exact ih (fun argument present => each argument (by simp [present])) _

/-- Writing an expression opens and closes no scope. -/
theorem generate_quiet (expression : Expression) :
    Quiet Compiler.SameScopes expression.generate := by
  induction expression with
  | number | string => exact .emitConstant _
  | literal value => exact .emit _
  | reference name => exact (Quiet.resolve name).bind .emitGet
  | assign name value ih =>
    exact (Quiet.resolve name).bind fun reference => ih.bind fun _ => .emitSet reference
  | unary operator operand ih => exact ih.bind fun _ => .emit _
  | binary operator left right ihLeft ihRight =>
    exact ihLeft.bind fun _ => ihRight.bind fun _ => .forM .emit
  | and left right ihLeft ihRight =>
    exact ihLeft.bind fun _ => (Quiet.emitJump _).bind fun _ => (Quiet.emit _).bind fun _ =>
      ihRight.bind fun _ => .patchJump _
  | or left right ihLeft ihRight =>
    exact ihLeft.bind fun _ => (Quiet.emitJump _).bind fun _ => (Quiet.emitJump _).bind fun _ =>
      (Quiet.patchJump _).bind fun _ => (Quiet.emit _).bind fun _ =>
      ihRight.bind fun _ => .patchJump _
  | call callee arguments ihCallee ihArguments =>
    exact ihCallee.bind fun _ => (generateAll_quiet ihArguments 0).bind fun _ => .emitWith _ _

end Expression

namespace Statement

/-- The two forms of a loop are written by the same action. -/
theorem generate_forLoop (condition : Expression) (body : Statement) :
    (forLoop .empty (some condition) none body).generate = (whileLoop condition body).generate := by
  have quiet : Quiet Compiler.SameScopes (generateCondition (some condition)) :=
    condition.generate_quiet.bind fun _ => (Quiet.emitJump _).bind fun _ =>
      (Quiet.emit _).bind fun _ => .ofPure _
  rw [generate_whileLoop]
  simp only [generate, generateIncrement, pure_bind]
  funext writer
  change (generateCondition (some condition) >>= fun exit => _)
      (writer.onDraft (·.openScope .loop)) =
    (generateCondition (some condition) >>= fun exit => _) (writer.onDraft (·.openScope .loop))
  rw [bind_apply, bind_apply]
  cases ran : generateCondition (some condition) (writer.onDraft (·.openScope .loop)) with
  | error => rfl
  | ok exit after =>
    -- The scope of the loop is still the innermost one, and goes on where it was opened.
    have scopesEq : Scope.setLoopStart writer.draft.chunk.size after.draft.scopes =
        after.draft.scopes := by
      rw [quiet _ _ _ ran]
      rfl
    apply bind_of_ok
    exact congrArg (fun scopes => EStateM.Result.ok ()
      { after with draft := { after.draft with scopes } }) scopesEq

/-- Whether two trees have the same code and can go on with the same tokens. -/
structure SameCode (statement other : Statement) : Prop where
  generate_eq : other.generate = statement.generate
  isOpen_eq : other.isOpen = statement.isOpen
  empty_iff : other = .empty ↔ statement = .empty

theorem SameCode.refl (statement : Statement) : statement.SameCode statement :=
  ⟨rfl, rfl, Iff.rfl⟩

theorem SameCode.trans {statement other third : Statement} (first : statement.SameCode other)
    (second : other.SameCode third) : statement.SameCode third :=
  ⟨second.generate_eq.trans first.generate_eq, second.isOpen_eq.trans first.isOpen_eq,
    second.empty_iff.trans first.empty_iff⟩

theorem SameCode.conditional {met met' unmet unmet' : Statement} (sameMet : met.SameCode met')
    (sameUnmet : unmet.SameCode unmet') (condition : Expression) :
    (conditional condition met unmet).SameCode (.conditional condition met' unmet') := by
  refine ⟨?_, ?_, by simp⟩
  · simp only [generate, sameMet.generate_eq, sameUnmet.generate_eq]
  · by_cases isEmpty : unmet = .empty
    · rw [isEmpty, sameUnmet.empty_iff.mpr isEmpty]
      rfl
    · have isOpen_eq {condition met unmet} (given : unmet ≠ .empty) :
          (Statement.conditional condition met unmet).isOpen = unmet.isOpen := by
        cases unmet <;> first | rfl | exact absurd rfl given
      rw [isOpen_eq isEmpty, isOpen_eq (mt sameUnmet.empty_iff.mp isEmpty), sameUnmet.isOpen_eq]

end Statement

/-! ## Tokens -/

/-- A token without its place. -/
def Token.bare (token : Token) : Token :=
  token.moved fun _ => .unread

namespace Grammar

/-- The tokens of a loop up to its body, in either form. -/
inductive LoopHead (test : List Token) : List Token → Prop where
  | whileLoop {word opening closing : Token} (introduces : word.kind = .keyword .whileKw)
      (opens : opening.kind = .leftParen) (closes : closing.kind = .rightParen) :
      LoopHead test (word :: opening :: test ++ [closing])
  | forLoop {word opening first second closing : Token} (introduces : word.kind = .keyword .forKw)
      (opens : opening.kind = .leftParen) (starts : first.kind = .semicolon)
      (ends : second.kind = .semicolon) (closes : closing.kind = .rightParen) :
      LoopHead test (word :: opening :: first :: test ++ [second, closing])

/-- Whether tokens differ in the forms of some loops only. -/
inductive Relooped : List Token → List Token → Prop where
  | nil : Relooped [] []
  | keep {tokens others : List Token} (token : Token) (rest : Relooped tokens others) :
      Relooped (token :: tokens) (token :: others)
  | turn {test front front' tokens others : List Token} {condition : Expression}
      (tested : Operand .assignment test condition) (head : LoopHead test front)
      (head' : LoopHead test front') (rest : Relooped tokens others) :
      Relooped (front ++ tokens) (front' ++ others)

variable {token : Token} {tokens others front inside back test : List Token}
  {category outer : Category} {statement body : Statement} {condition : Expression}
  {depth inner : Nat}

theorem LoopHead.exists_word (head : LoopHead test front) :
    ∃ word rest, front = word :: rest ∧ word.kind.isPlain = false := by
  cases head with
  | whileLoop introduces | forLoop introduces => exact ⟨_, _, rfl, by rw [introduces]; rfl⟩

namespace Relooped

/-- A token is kept, or it is the first one of a loop that takes the other form. -/
theorem cons_cases (relooped : Relooped (token :: tokens) others) :
    (∃ more, others = token :: more ∧ Relooped tokens more) ∨
    ∃ test condition front front' rest more, token :: tokens = front ++ rest ∧
      Operand .assignment test condition ∧ LoopHead test front ∧ LoopHead test front' ∧
      others = front' ++ more ∧ Relooped rest more := by
  generalize whole : token :: tokens = all at relooped
  cases relooped with
  | nil => cases whole
  | keep _ rest =>
    cases whole
    exact .inl ⟨_, rfl, rest⟩
  | turn tested head head' rest =>
    exact .inr ⟨_, _, _, _, _, _, rfl, tested, head, head', rfl, rest⟩

theorem eq_nil (relooped : Relooped [] others) : others = [] := by
  generalize whole : [] = all at relooped
  cases relooped with
  | nil => rfl
  | keep => cases whole
  | turn _ head =>
    rcases head.exists_word with ⟨word, rest, rfl, _⟩
    cases whole

/-- Tokens that introduce no loop are kept. -/
theorem append_of_plain (relooped : Relooped (front ++ tokens) others) (plain : Plain front) :
    ∃ more, others = front ++ more ∧ Relooped tokens more := by
  induction front generalizing others with
  | nil => exact ⟨others, rfl, relooped⟩
  | cons token front ih =>
    rcases each_cons.mp plain with ⟨plainFirst, plainRest⟩
    rcases relooped.cons_cases with
      ⟨_, rfl, rest⟩ | ⟨_, _, _, _, _, _, same, _, head, _⟩
    · rcases ih rest plainRest with ⟨more, rfl, follows⟩
      exact ⟨more, rfl, follows⟩
    · rcases head.exists_word with ⟨word, _, rfl, notPlain⟩
      rw [← (List.cons.inj same).1, show token.kind.isPlain = true from plainFirst] at notPlain
      cases notPlain

end Relooped

attribute [local simp] Token.Plain Token.Kind.isPlain

theorem Whole.plain_inParens {opening closing : Token} (tested : Whole test condition depth)
    (opens : opening.kind = .leftParen) (closes : closing.kind = .rightParen) :
    Plain (opening :: test ++ [closing]) := by
  simp [opens, tested.isPlain, closes]

/--
Whether what takes the place of a phrase, in front of whatever stands behind it, is a phrase of the
same depth with the same code.
-/
def Exchanges (category : Category) (tokens : List Token) (statement : Statement) (depth : Nat) :
    Prop :=
  ∀ more others, Relooped (tokens ++ more) others →
    ∃ tokens' more' statement', others = tokens' ++ more' ∧
      Phrase category tokens' statement' depth ∧ statement.SameCode statement' ∧
      Relooped more more'

theorem Phrase.exchanges_of_plain (phrase : Phrase category tokens statement depth)
    (plain : Plain tokens) : Exchanges category tokens statement depth := by
  intro more others relooped
  rcases relooped.append_of_plain plain with ⟨more', rfl, rest⟩
  exact ⟨tokens, more', statement, rfl, phrase, .refl statement, rest⟩

/-- A phrase behind tokens that are kept. -/
theorem Exchanges.behind {more : List Token} (exchanges : Exchanges category tokens statement depth)
    (plain : Plain front) (relooped : Relooped (front ++ (tokens ++ more)) others) :
    ∃ tokens' more' statement', others = front ++ (tokens' ++ more') ∧
      Phrase category tokens' statement' depth ∧ statement.SameCode statement' ∧
      Relooped more more' := by
  rcases relooped.append_of_plain plain with ⟨_, rfl, behind⟩
  rcases exchanges _ _ behind with ⟨tokens', more', statement', rfl, phrase, same, follows⟩
  exact ⟨tokens', more', statement', rfl, phrase, same, follows⟩

/-- A phrase between tokens that are kept. -/
theorem Exchanges.between (exchanges : Exchanges category inside body inner)
    (front back : List Token) (plainFront : Plain front) (plainBack : Plain back)
    (around : ∀ inside' body', Phrase category inside' body' inner → body.SameCode body' →
      ∃ statement', Phrase outer (front ++ (inside' ++ back)) statement' depth ∧
        statement.SameCode statement') :
    Exchanges outer (front ++ (inside ++ back)) statement depth := by
  intro more others relooped
  simp only [List.append_assoc] at relooped
  rcases exchanges.behind plainFront relooped with ⟨inside', _, body', rfl, phrase, same, follows⟩
  rcases follows.append_of_plain plainBack with ⟨more', rfl, rest⟩
  rcases around inside' body' phrase same with ⟨statement', whole, sameWhole⟩
  exact ⟨_, more', statement', by simp, whole, sameWhole, rest⟩

/-- The parts of what takes the place of a conditional with a further branch. -/
theorem Exchanges.further {opening closing word : Token} {elsewhere more : List Token}
    {met unmet : Statement} {last : Nat} (chosen : Exchanges .statement inside met inner)
    (other : Exchanges category elsewhere unmet last) (opens : opening.kind = .leftParen)
    (tested : Whole test condition depth) (closes : closing.kind = .rightParen)
    (plain : word.kind.isPlain = true)
    (relooped : Relooped (opening :: test ++ closing :: inside ++ word :: elsewhere ++ more)
      others) :
    ∃ inside' elsewhere' more' met' unmet',
      others = opening :: test ++ closing :: inside' ++ word :: elsewhere' ++ more' ∧
      Phrase .statement inside' met' inner ∧ met.SameCode met' ∧
      Phrase category elsewhere' unmet' last ∧ unmet.SameCode unmet' ∧ Relooped more more' := by
  rcases chosen.behind (tested.plain_inParens opens closes) (by simpa using relooped) with
    ⟨inside', _, met', rfl, phrase, same, follows⟩
  rcases other.behind (each_cons.mpr ⟨plain, each_nil⟩) follows with
    ⟨elsewhere', more', unmet', rfl, phraseToo, sameToo, rest⟩
  exact ⟨inside', elsewhere', more', met', unmet', by simp, phrase, same, phraseToo, sameToo, rest⟩

/-- A loop in either form, with a body of the same code. -/
theorem Phrase.loop_of_head {body' : Statement} (head : LoopHead test front)
    (tested : Whole test condition depth) (repeated : Phrase .statement inside body' inner)
    (same : body.SameCode body') :
    ∃ loop, Phrase .statement (front ++ inside) loop (max depth inner + 1) ∧
      (Statement.whileLoop condition body).SameCode loop := by
  have sameWhile : (Statement.whileLoop condition body).SameCode (.whileLoop condition body') :=
    ⟨by simp only [Statement.generate, same.generate_eq], same.isOpen_eq, by simp⟩
  cases head with
  | whileLoop introduces opens closes =>
    have loop := Phrase.whileLoop introduces opens tested closes repeated
    exact ⟨_, by simpa using loop, sameWhile⟩
  | forLoop introduces opens starts ends closes =>
    have loop := Phrase.forLoop introduces opens (.missing starts) (.present tested ends)
      (.missing closes) repeated
    refine ⟨.forLoop .empty (some condition) none body', by simpa using loop, ?_, same.isOpen_eq,
      by simp⟩
    rw [Statement.generate_forLoop, sameWhile.generate_eq]

/--
A loop is kept, with what takes the place of its body, or takes the other form. The loop that is
exchanged is then the one that was read.
-/
theorem Exchanges.loop {word : Token} (exchanges : Exchanges .statement inside body inner)
    (front : List Token) (plain : Plain front)
    (kept : ∀ inside' body', Phrase .statement inside' body' inner → body.SameCode body' →
      ∃ loop, Phrase .statement (word :: front ++ inside') loop depth ∧ statement.SameCode loop)
    (turned : ∀ test condition head rest behind, word :: front ++ behind = head ++ rest →
      Operand .assignment test condition → LoopHead test head →
      behind = rest ∧ ∃ tests, Whole test condition tests ∧ depth = max tests inner + 1 ∧
        statement.SameCode (.whileLoop condition body)) :
    Exchanges .statement (word :: front ++ inside) statement depth := by
  intro more others relooped
  rw [List.append_assoc] at relooped
  rcases relooped.cons_cases with
    ⟨_, rfl, rest⟩ | ⟨_, _, _, _, _, _, whole, tested, head, head', rfl, rest⟩
  · rcases rest.append_of_plain plain with ⟨_, rfl, behind⟩
    rcases exchanges _ _ behind with ⟨inside', more', body', rfl, phrase, same, follows⟩
    rcases kept inside' body' phrase same with ⟨loop, phrase, same⟩
    exact ⟨_, more', loop, by simp, phrase, same, follows⟩
  · rcases turned _ _ _ _ _ whole tested head with ⟨rfl, tests, wholeTest, rfl, sameWhile⟩
    rcases exchanges _ _ rest with ⟨inside', more', body', rfl, phrase, same, follows⟩
    rcases phrase.loop_of_head head' wholeTest same with ⟨loop, phrase, sameLoop⟩
    exact ⟨_, more', loop, by simp, phrase, sameWhile.trans sameLoop, follows⟩

/-- A reader that finds two things at the front of the same tokens finds one thing. -/
theorem unique_of_found {α : Type} {read : Nat → List Token → Option (α × List Token)}
    {value value' : α} {rest rest' : List Token}
    (found : ∀ᶠ fuel in Filter.atTop, ∀ rest, read fuel (tokens ++ rest) = some (value, rest))
    (found' : ∀ᶠ fuel in Filter.atTop, ∀ rest, read fuel (others ++ rest) = some (value', rest))
    (same : tokens ++ rest = others ++ rest') :
    value = value' ∧ tokens = others ∧ rest = rest' := by
  rcases (found.and found').exists with ⟨fuel, here, here'⟩
  have both := here rest
  rw [same, here'] at both
  cases both
  exact ⟨rfl, List.append_cancel_right same, rfl⟩

theorem Clause.whole {ending : Token.Kind} {token : Token}
    (clause : Clause ending (tokens ++ [token]) (some condition) depth) :
    Whole tokens condition depth := by
  generalize all : tokens ++ [token] = clauseTokens at clause
  cases clause with
  | present given _ =>
    rw [(List.append_inj' all rfl).1]
    exact given

theorem exchanges_whileLoop {word opening closing : Token}
    (introduces : word.kind = .keyword .whileKw) (opens : opening.kind = .leftParen)
    (tested : Whole test condition depth) (closes : closing.kind = .rightParen)
    (exchanges : Exchanges .statement inside body inner) :
    Exchanges .statement (word :: opening :: test ++ closing :: inside)
      (.whileLoop condition body) (max depth inner + 1) := by
  rw [show word :: opening :: test ++ closing :: inside =
    word :: (opening :: test ++ [closing]) ++ inside by simp]
  apply exchanges.loop
  · exact tested.plain_inParens opens closes
  · intro inside' body' phrase same
    exact phrase.loop_of_head (.whileLoop introduces opens closes) tested same
  · intro test' condition' head rest behind whole testedToo isHead
    cases isHead with
    | whileLoop _ _ ends =>
      simp only [List.cons_append, List.append_assoc, List.cons.injEq] at whole
      rcases testedToo.exists_whole with ⟨_, wholeToo⟩
      rcases unique_of_found ((Clause.present tested closes).found rightParen_endsExpression)
        ((Clause.present wholeToo ends).found rightParen_endsExpression)
        (by simpa using whole.2.2) with ⟨⟨⟩, sameTest, rfl⟩
      rw [← (List.append_inj' sameTest rfl).1]
      exact ⟨rfl, depth, tested, rfl, .refl _⟩
    | forLoop isFor =>
      rw [← (List.cons.inj whole).1, introduces] at isFor
      cases isFor

theorem exchanges_forLoop {word opening : Token} {start advance : List Token}
    {initial : Statement} {given increment : Option Expression} {tests rounds : Nat}
    (introduces : word.kind = .keyword .forKw) (opens : opening.kind = .leftParen)
    (starts : Initial start initial depth) (tested : Clause .semicolon test given tests)
    (advances : Clause .rightParen advance increment rounds)
    (exchanges : Exchanges .statement inside body inner) :
    Exchanges .statement (word :: opening :: start ++ test ++ advance ++ inside)
      (.forLoop initial given increment body) (max (max depth tests) (max rounds inner) + 1) := by
  rw [show word :: opening :: start ++ test ++ advance ++ inside =
    word :: (opening :: start ++ test ++ advance) ++ inside by simp]
  apply exchanges.loop
  · simp [opens, starts.isPlain, tested.isPlain rfl, advances.isPlain rfl]
  · intro inside' body' phrase same
    exact ⟨_, .forLoop introduces opens starts tested advances phrase,
      by simp only [Statement.generate, same.generate_eq], same.isOpen_eq, by simp⟩
  · intro test' condition' head rest behind whole testedToo isHead
    cases isHead with
    | whileLoop isWhile =>
      rw [← (List.cons.inj whole).1, introduces] at isWhile
      cases isWhile
    | @forLoop _ _ first second closing _ _ isFirst ends closes =>
      have clauses : start ++ (test ++ (advance ++ behind)) =
          [first] ++ ((test' ++ [second]) ++ ([closing] ++ rest)) := by
        simpa using (List.cons.inj (List.cons.inj whole).2).2
      rcases unique_of_found starts.found (Initial.missing isFirst).found clauses
        with ⟨rfl, _, clausesLeft⟩
      rcases testedToo.exists_whole with ⟨_, wholeToo⟩
      rcases unique_of_found (tested.found semicolon_endsExpression)
        ((Clause.present wholeToo ends).found semicolon_endsExpression) clausesLeft with
        ⟨rfl, rfl, clauseLeft⟩
      rcases unique_of_found (advances.found rightParen_endsExpression)
        ((Clause.missing closes).found rightParen_endsExpression) clauseLeft with
        ⟨rfl, _, rfl⟩
      cases starts
      cases advances
      refine ⟨rfl, tests, tested.whole, by simp, ?_, rfl, by simp⟩
      rw [Statement.generate_forLoop]

/-- What takes the place of a phrase is a phrase of the same depth, with the same code. -/
theorem Phrase.exchanges (phrase : Phrase category tokens statement depth) :
    Exchanges category tokens statement depth := by
  induction phrase with
  | expression given ends =>
    apply (Phrase.expression given ends).exchanges_of_plain
    simp [given.isPlain, ends]
  | print introduces given ends =>
    apply (Phrase.print introduces given ends).exchanges_of_plain
    simp [introduces, given.isPlain, ends]
  | @block opening closing _ _ _ opens _ closes ih =>
    apply ih.between [opening] [closing] (by simp [opens])
      (by simp [closes])
    intro inside' body' phrase same
    exact ⟨_, .block opens phrase closes, by simp only [Statement.generate, same.generate_eq], rfl,
      by simp⟩
  | @branch word _ _ _ introduces _ ih =>
    intro more others relooped
    rcases ih.behind (show Plain [word] by simp [introduces]) relooped with
      ⟨_, more', _, rfl, phrase, same, follows⟩
    exact ⟨_, more', _, rfl, .branch introduces phrase, same, follows⟩
  | whileLoop introduces opens tested closes _ ih =>
    exact exchanges_whileLoop introduces opens tested closes ih
  | forLoop introduces opens starts tested advances _ ih =>
    exact exchanges_forLoop introduces opens starts tested advances ih
  | breakLoop introduces ends =>
    apply (Phrase.breakLoop introduces ends).exchanges_of_plain
    simp [introduces, ends]
  | continueLoop introduces ends =>
    apply (Phrase.continueLoop introduces ends).exchanges_of_plain
    simp [introduces, ends]
  | returnValue introduces given =>
    apply (Phrase.returnValue introduces given).exchanges_of_plain
    simp [introduces, given.isPlain rfl]
  | alone opens tested closes _ ih =>
    intro more others relooped
    rcases ih.behind (tested.plain_inParens opens closes) (by simpa using relooped) with
      ⟨_, more', _, rfl, phrase, same, follows⟩
    exact ⟨_, more', _, by simp, .alone opens tested closes phrase, same.conditional (.refl _) _,
      follows⟩
  | otherwise opens tested closes _ closed introduces _ ihMet ihUnmet =>
    intro more others relooped
    rcases ihMet.further ihUnmet opens tested closes (by rw [introduces]; rfl) relooped with
      ⟨_, _, more', _, _, rfl, chosen, same, other, sameToo, rest⟩
    exact ⟨_, more', _, rfl, .otherwise opens tested closes chosen (same.isOpen_eq.trans closed)
      introduces other, same.conditional sameToo _, rest⟩
  | alternative opens tested closes _ closed introduces _ ihMet ihUnmet =>
    intro more others relooped
    rcases ihMet.further ihUnmet opens tested closes (by rw [introduces]; rfl) relooped with
      ⟨_, _, more', _, _, rfl, chosen, same, other, sameToo, rest⟩
    exact ⟨_, more', _, rfl, .alternative opens tested closes chosen (same.isOpen_eq.trans closed)
      introduces other, same.conditional sameToo _, rest⟩
  | statement _ ih =>
    intro more others relooped
    rcases ih more others relooped with ⟨tokens', more', statement', rfl, phrase, same, follows⟩
    exact ⟨tokens', more', statement', rfl, .statement phrase, same, follows⟩
  | varDeclaration introduces declares =>
    apply (Phrase.varDeclaration introduces declares).exchanges_of_plain
    simp [introduces, declares.isPlain]
  | @funDeclaration word name opening closing brace ending names inside _ _ _ introduces named opens
      takes closes begins _ ends ih =>
    rw [show word :: name :: opening :: names ++ closing :: brace :: inside ++ [ending] =
      (word :: name :: opening :: (names ++ [closing, brace])) ++ (inside ++ [ending]) by simp]
    apply ih.between
    · simp [introduces, named, opens, takes.plain_parameters, closes, begins]
    · simp [ends]
    · intro inside' body' phrase same
      have declaration :=
        Phrase.funDeclaration introduces named opens takes closes begins phrase ends
      refine ⟨.funDeclaration name.lexeme _ body', by simpa using declaration, ?_, rfl, by simp⟩
      simp only [Statement.generate, same.generate_eq]
  | nothing => exact Phrase.nothing.exchanges_of_plain each_nil
  | more _ _ ihFirst ihRest =>
    intro more others relooped
    rw [List.append_assoc] at relooped
    rcases ihFirst _ _ relooped with ⟨_, _, _, rfl, declares, same, behind⟩
    rcases ihRest _ _ behind with ⟨_, more', _, rfl, phrase, sameRest, follows⟩
    exact ⟨_, more', _, (List.append_assoc _ _ _).symm, .more declares phrase,
      ⟨by simp only [Statement.generate, same.generate_eq, sameRest.generate_eq], rfl, by simp⟩,
      follows⟩

theorem Nested.Program.moved {place : Token → Token} (program : Nested.Program tokens body depth) :
    Nested.Program (tokens.map (Token.moved place)) body depth := by
  rcases program with ⟨front, ending, rfl, isEnd, phrase⟩
  exact ⟨_, ending.moved place, List.map_append, isEnd, phrase.moved⟩

/-- What takes the place of a program is a program of the same depth, with the same code. -/
theorem Nested.Program.exchanged (program : Nested.Program tokens body depth)
    (relooped : Relooped tokens others) :
    ∃ body', Nested.Program others body' depth ∧ body.SameCode body' := by
  rcases program with ⟨front, ending, rfl, isEnd, phrase⟩
  rcases phrase.exchanges _ _ relooped with ⟨front', _, body', rfl, phrase', same, follows⟩
  rcases Relooped.append_of_plain (show Relooped ([ending] ++ []) _ from follows)
    (by simp [isEnd]) with ⟨_, rfl, nothing⟩
  rw [nothing.eq_nil]
  exact ⟨body', ⟨front', ending, rfl, isEnd, phrase'⟩, same⟩

end Grammar

/-! ## Scripts -/

theorem forall₂_of_common {α : Type} {related : α → α → Prop} {left right others : List α}
    (first : List.Forall₂ related left others) (second : List.Forall₂ related right others)
    (each : ∀ item ∈ left, ∀ another other, related item other → related another other →
      related item another) : List.Forall₂ related left right := by
  induction first generalizing right with
  | nil =>
    cases second
    exact .nil
  | cons related _ ih =>
    rcases second with _ | ⟨relatedToo, second⟩
    exact .cons (each _ List.mem_cons_self _ _ related relatedToo)
      (ih second fun item present => each item (List.mem_cons_of_mem _ present))

/-- Functions that are alike to the same one are alike. -/
theorem Function.Alike.of_common {left right other : Function} (alike : left.Alike other)
    (alikeToo : right.Alike other) : left.Alike right := by
  rcases alike with ⟨nameEq, arityEq, codeEq, startsEq, held⟩
  rcases alikeToo with ⟨nameEq', arityEq', codeEq', startsEq', held'⟩
  refine .mk (nameEq.trans nameEq'.symm) (arityEq.trans arityEq'.symm) (codeEq.trans codeEq'.symm)
    (startsEq.trans startsEq'.symm) (forall₂_of_common held held' ?_)
  intro constant present another third like likeToo
  match constant, another, third, present, like, likeToo with
  | _, _, _, _, .nil, .nil => exact .nil
  | _, _, _, _, .bool value, .bool _ => exact .bool value
  | _, _, _, _, .number value, .number _ => exact .number value
  | _, _, _, _, .string text, .string _ => exact .string text
  | .function inner, _, _, inPool, .function alike, .function alikeToo =>
    exact .function (alike.of_common alikeToo)
termination_by sizeOf left
decreasing_by exact Listing.sizeOf_lt_of_mem (Array.mem_toList_iff.mp inPool)

theorem program_bare (tokens : List Token) :
    Matched Function.Alike (program (.ofTokens tokens))
      (program (.ofTokens (tokens.map Token.bare))) := by
  have same : List.Forall₂ Token.Same tokens (tokens.map Token.bare) := by
    rw [List.forall₂_map_right_iff, List.forall₂_same]
    exact fun token _ => ⟨rfl, rfl⟩
  exact program_matched ⟨same, ⟨rfl, rfl⟩, ⟨rfl, rfl⟩, rfl, .refl _, .nil⟩

/--
A text that compiles and a text with the same tokens, but for the forms of some loops, from `while`
to `for` or the other way around, are compiled to scripts that differ in their lines only.
-/
theorem compile_relooped {text other : String} {script : Function}
    (compiled : compile text = .ok script)
    (relooped : Grammar.Relooped ((tokens text).map Token.bare) ((tokens other).map Token.bare)) :
    ∃ script', compile other = .ok script' ∧ script.Alike script' := by
  rcases compile_read compiled with ⟨body, ⟨depth, nested⟩, _⟩
  rcases nested.moved.exchanged relooped with ⟨body', nested', same⟩
  have agrees := nested.agrees
  have agrees' := nested'.agrees
  have matched := program_bare (tokens other)
  rw [Statement.generateScript, same.generate_eq, ← Statement.generateScript] at agrees'
  rw [compile, compileTokens] at compiled
  rw [compile, compileTokens]
  generalize program (.ofTokens (tokens text)) = result at agrees compiled
  generalize program (.ofTokens ((tokens other).map Token.bare)) = bare at agrees' matched
  generalize program (.ofTokens (tokens other)) = result' at matched
  generalize body.generateScript (.ofTokens []) = written at agrees agrees'
  cases result with
  | error => cases compiled
  | ok found after =>
    cases compiled
    cases written with
    | error => exact agrees.elim
    | ok model writer =>
      rcases agrees with ⟨shallow, alike⟩
      cases matched with
      | error => exact absurd shallow agrees'
      | ok alikeBare => exact ⟨_, rfl, (alike.of_common agrees'.2).of_common alikeBare⟩

def whileText : String :=
  "while (a) break;"

def forText : String :=
  "for (; a;) break;"

/-- The loop takes the other form, and is left as before. -/
theorem compile_relooped_forText :
    Grammar.Relooped ((tokens whileText).map Token.bare) ((tokens forText).map Token.bare) ∧
      ∃ script script', compile whileText = .ok script ∧ compile forText = .ok script' ∧
        script.Alike script' := by
  have relooped : Grammar.Relooped ((tokens whileText).map Token.bare)
      ((tokens forText).map Token.bare) := by
    have whileEq : (tokens whileText).map Token.bare =
        [⟨.keyword .whileKw, "while", 0, 1⟩, ⟨.leftParen, "(", 0, 1⟩, ⟨.identifier, "a", 0, 1⟩,
          ⟨.rightParen, ")", 0, 1⟩] ++
        [⟨.keyword .breakKw, "break", 0, 1⟩, ⟨.semicolon, ";", 0, 1⟩, .unread] := by
      decide +kernel
    have forEq : (tokens forText).map Token.bare =
        [⟨.keyword .forKw, "for", 0, 1⟩, ⟨.leftParen, "(", 0, 1⟩, ⟨.semicolon, ";", 0, 1⟩,
          ⟨.identifier, "a", 0, 1⟩, ⟨.semicolon, ";", 0, 1⟩, ⟨.rightParen, ")", 0, 1⟩] ++
        [⟨.keyword .breakKw, "break", 0, 1⟩, ⟨.semicolon, ";", 0, 1⟩, .unread] := by
      decide +kernel
    rw [whileEq, forEq]
    exact .turn ⟨_, _, by decide, .reference rfl⟩ (.whileLoop rfl rfl rfl)
      (.forLoop rfl rfl rfl rfl rfl) (.keep _ (.keep _ (.keep _ .nil)))
  have accepted : (compile whileText).toBool = true := by decide +kernel
  cases compiled : compile whileText with
  | error error =>
    rw [compiled] at accepted
    cases accepted
  | ok script =>
    rcases compile_relooped compiled relooped with ⟨script', compiled', alike⟩
    exact ⟨relooped, script, script', rfl, compiled', alike⟩

end StackScript
