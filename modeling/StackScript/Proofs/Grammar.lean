import StackScript.Compiler.Expression
import StackScript.Proofs.Tree

/-!
# The grammar

Which tokens make up which tree, said without a parser. Expressions are chains: a first operand, and
then the operators and arguments that extend it one after the other. What stands behind an operator
is a chain of its own, one level deeper. Statements and declarations are phrases of four categories.
The depth of a phrase is the number of levels that are open at a time.

A further branch belongs to the nearest conditional that can take it, so the branch in front of it
must not be open.
-/

namespace StackScript

namespace Precedence

theorem le_refl (level : Precedence) : level ≤ level :=
  Nat.le_refl level.rank

theorem le_trans {first second third : Precedence} (left : first ≤ second)
    (right : second ≤ third) : first ≤ third :=
  Nat.le_trans left right

theorem le_primary (level : Precedence) : level ≤ .primary := by
  cases level <;> decide

end Precedence

namespace Grammar

variable {tokens : List Token} {level : Precedence} {category : Category} {statement : Statement}
  {depth : Nat}

/-- Items with commas between them. -/
inductive Separated {α : Type} (Item : List Token → α → Prop) : List Token → List α → Prop where
  | none : Separated Item [] []
  | last {tokens : List Token} {item : α} (only : Item tokens item) : Separated Item tokens [item]
  | more {tokens rest : List Token} {comma : Token} {item next : α} {items : List α}
      (first : Item tokens item) (separator : comma.kind = .comma)
      (others : Separated Item rest (next :: items)) :
      Separated Item (tokens ++ comma :: rest) (item :: next :: items)

mutual

/-- The tokens of an expression with how tightly it binds and how deep it nests. -/
inductive Chain : List Token → Expression → Precedence → Nat → Prop where
  | number {token : Token} {value : Float} (kind : token.kind = .number)
      (denotes : Number.parse? token.lexeme = some value) :
      Chain [token] (.number value) .primary 0
  | string {token : Token} (kind : token.kind = .string) :
      Chain [token] (.string (Compile.unquote token.lexeme)) .primary 0
  | literal {token : Token} {value : KeywordLiteral}
      (kind : token.kind.leading? = some (.literal value)) :
      Chain [token] (.literal value) .primary 0
  | reference {token : Token} (kind : token.kind = .identifier) :
      Chain [token] (.reference token.lexeme) .primary 0
  | grouping {opening closing : Token} {tokens : List Token} {inner : Expression}
      {level : Precedence} {depth : Nat} (opens : opening.kind = .leftParen)
      (inside : Chain tokens inner level depth) (closes : closing.kind = .rightParen) :
      Chain (opening :: tokens ++ [closing]) inner .primary (depth + 1)
  | unary {token : Token} {operator : UnaryOperator} {tokens : List Token}
      {operand : Expression} {level : Precedence} {depth : Nat}
      (kind : token.kind.leading? = some (.unary operator))
      (operated : Chain tokens operand level depth) (tight : .unary ≤ level) :
      Chain (token :: tokens) (.unary operator operand) .unary (depth + 1)
  | assign {name equals : Token} {tokens : List Token} {value : Expression}
      {level : Precedence} {depth : Nat} (target : name.kind = .identifier)
      (sign : equals.kind = .equal) (assigned : Chain tokens value level depth) :
      Chain (name :: equals :: tokens) (.assign name.lexeme value) .assignment (depth + 1)
  | call {opening closing : Token} {front inside : List Token} {callee : Expression}
      {arguments : List Expression} {level : Precedence} {depth inner : Nat}
      (called : Chain front callee level depth) (tight : .call ≤ level)
      (opens : opening.kind = .leftParen) (given : Given inside arguments inner)
      (closes : closing.kind = .rightParen) :
      Chain (front ++ opening :: inside ++ [closing]) (.call callee arguments) .call
        (max depth inner)
  | binary {token : Token} {operator : BinaryOperator} {front back : List Token}
      {left right : Expression} {level behind : Precedence} {depth inner : Nat}
      (leftOperand : Chain front left level depth) (tight : operator.precedence ≤ level)
      (kind : token.kind.trailing? = some (.binary operator))
      (rightOperand : Chain back right behind inner)
      (tighter : operator.precedence.tighter ≤ behind) :
      Chain (front ++ token :: back) (.binary operator left right) operator.precedence
        (max depth (inner + 1))
  | and {token : Token} {front back : List Token} {left right : Expression}
      {level behind : Precedence} {depth inner : Nat}
      (leftOperand : Chain front left level depth) (tight : .equality ≤ level)
      (kind : token.kind = .keyword .andKw) (rightOperand : Chain back right behind inner)
      (tighter : .and ≤ behind) :
      Chain (front ++ token :: back) (.and left right) .and (max depth (inner + 1))
  | or {token : Token} {front back : List Token} {left right : Expression}
      {level behind : Precedence} {depth inner : Nat}
      (leftOperand : Chain front left level depth) (tight : .and ≤ level)
      (kind : token.kind = .keyword .orKw) (rightOperand : Chain back right behind inner)
      (tighter : .or ≤ behind) :
      Chain (front ++ token :: back) (.or left right) .or (max depth (inner + 1))

/-- The tokens of the arguments of a call, each of them one level deeper. -/
inductive Given : List Token → List Expression → Nat → Prop where
  | none : Given [] [] 0
  | last {tokens : List Token} {argument : Expression} {level : Precedence} {depth : Nat}
      (only : Chain tokens argument level depth) : Given tokens [argument] (depth + 1)
  | more {tokens rest : List Token} {comma : Token} {argument next : Expression}
      {arguments : List Expression} {level : Precedence} {depth inner : Nat}
      (first : Chain tokens argument level depth) (separator : comma.kind = .comma)
      (others : Given rest (next :: arguments) inner) :
      Given (tokens ++ comma :: rest) (argument :: next :: arguments) (max (depth + 1) inner)

end

/-- The tokens of an expression whose operators bind at least as tightly as `level`. -/
def Operand (level : Precedence) (tokens : List Token) (expression : Expression) : Prop :=
  ∃ reached depth, level ≤ reached ∧ Chain tokens expression reached depth

theorem Operand.looser {loose : Precedence} {expression : Expression} (binds : loose ≤ level)
    (operand : Operand level tokens expression) : Operand loose tokens expression := by
  rcases operand with ⟨reached, depth, tight, chain⟩
  exact ⟨reached, depth, Precedence.le_trans binds tight, chain⟩

theorem Separated.exists_given {arguments : List Expression}
    (separated : Separated (Operand .assignment) tokens arguments) :
    ∃ depth, Given tokens arguments depth := by
  induction separated with
  | none => exact ⟨_, .none⟩
  | last only =>
    rcases only with ⟨_, _, _, only⟩
    exact ⟨_, .last only⟩
  | more first separator _ ih =>
    rcases first with ⟨_, _, _, first⟩
    rcases ih with ⟨_, others⟩
    exact ⟨_, .more first separator others⟩

namespace Chain

variable {expression : Expression}

theorem assignment_le (chain : Chain tokens expression level depth) : .assignment ≤ level := by
  cases chain <;> first | decide | skip
  case binary operator _ _ _ _ _ _ _ _ _ _ _ _ _ => cases operator <;> decide

theorem operand (chain : Chain tokens expression level depth) :
    Operand level tokens expression :=
  ⟨level, depth, Precedence.le_refl level, chain⟩

theorem exists_first (chain : Chain tokens expression level depth) :
    ∃ first rest form, tokens = first :: rest ∧ first.kind.leading? = some form := by
  refine @Chain.rec
    (fun tokens _ _ _ _ => ∃ first rest form, tokens = first :: rest ∧
      first.kind.leading? = some form)
    (fun _ _ _ _ => True)
    ?number ?string ?literal ?reference ?grouping ?unary ?assign ?call ?binary ?and ?or
    ?none ?last ?more tokens expression level depth chain
  case number => exact fun kind _ => ⟨_, _, .number, rfl, by rw [kind]; rfl⟩
  case string => exact fun kind => ⟨_, _, .string, rfl, by rw [kind]; rfl⟩
  case literal => exact fun kind => ⟨_, _, _, rfl, kind⟩
  case reference => exact fun kind => ⟨_, _, .variable, rfl, by rw [kind]; rfl⟩
  case grouping =>
    intro _ _ _ _ _ _ opens _ _ _
    exact ⟨_, _, .grouping, rfl, by rw [opens]; rfl⟩
  case unary =>
    intro _ _ _ _ _ _ kind _ _ _
    exact ⟨_, _, _, rfl, kind⟩
  case assign =>
    intro _ _ _ _ _ _ target _ _ _
    exact ⟨_, _, .variable, rfl, by rw [target]; rfl⟩
  case call =>
    rintro _ _ _ _ _ _ _ _ _ _ _ _ _ _ ⟨first, rest, form, rfl, starts⟩ _
    exact ⟨first, _, form, rfl, starts⟩
  case binary =>
    rintro _ _ _ _ _ _ _ _ _ _ _ _ _ _ _ ⟨first, rest, form, rfl, starts⟩ _
    exact ⟨first, _, form, rfl, starts⟩
  case and =>
    rintro _ _ _ _ _ _ _ _ _ _ _ _ _ _ ⟨first, rest, form, rfl, starts⟩ _
    exact ⟨first, _, form, rfl, starts⟩
  case or =>
    rintro _ _ _ _ _ _ _ _ _ _ _ _ _ _ ⟨first, rest, form, rfl, starts⟩ _
    exact ⟨first, _, form, rfl, starts⟩
  case none => trivial
  case last => exact fun _ _ => trivial
  case more => exact fun _ _ _ _ _ => trivial

end Chain

theorem Given.exists_first {argument : Expression} {arguments : List Expression} {depth : Nat}
    (given : Given tokens (argument :: arguments) depth) :
    ∃ first rest form, tokens = first :: rest ∧ first.kind.leading? = some form := by
  cases given with
  | last only => exact only.exists_first
  | more first separator others =>
    rcases first.exists_first with ⟨head, tail, form, rfl, starts⟩
    exact ⟨head, _, form, rfl, starts⟩

/-! ## Statements -/

/-- The tokens of an expression that is read on its own. -/
def Whole (tokens : List Token) (expression : Expression) (depth : Nat) : Prop :=
  ∃ level inner, Chain tokens expression level inner ∧ depth = inner + 1

/-- What stands behind the word that declares a variable. -/
inductive Variable : List Token → String → Option Expression → Nat → Prop where
  | plain {name semicolon : Token} (named : name.kind = .identifier)
      (ends : semicolon.kind = .semicolon) :
      Variable [name, semicolon] name.lexeme none 0
  | initialized {name equals semicolon : Token} {tokens : List Token} {value : Expression}
      {depth : Nat} (named : name.kind = .identifier) (sign : equals.kind = .equal)
      (initial : Whole tokens value depth) (ends : semicolon.kind = .semicolon) :
      Variable (name :: equals :: tokens ++ [semicolon]) name.lexeme (some value) depth

/-- A clause of a counting loop with the token that ends it; the expression may be missing. -/
inductive Clause (ending : Token.Kind) : List Token → Option Expression → Nat → Prop where
  | missing {token : Token} (ends : token.kind = ending) : Clause ending [token] none 0
  | present {token : Token} {tokens : List Token} {value : Expression} {depth : Nat}
      (given : Whole tokens value depth) (ends : token.kind = ending) :
      Clause ending (tokens ++ [token]) (some value) depth

/-- The token of a parameter. -/
def Parameter (tokens : List Token) (name : String) : Prop :=
  ∃ token : Token, tokens = [token] ∧ token.kind = .identifier ∧ name = token.lexeme

/-- What a counting loop starts with. -/
inductive Initial : List Token → Statement → Nat → Prop where
  | missing {semicolon : Token} (ends : semicolon.kind = .semicolon) : Initial [semicolon] .empty 0
  | varDeclaration {word : Token} {tokens : List Token} {name : String}
      {initial : Option Expression} {depth : Nat} (introduces : word.kind = .keyword .varKw)
      (declares : Variable tokens name initial depth) :
      Initial (word :: tokens) (.varDeclaration name initial) depth
  | expression {semicolon : Token} {tokens : List Token} {value : Expression} {depth : Nat}
      (given : Whole tokens value depth) (ends : semicolon.kind = .semicolon) :
      Initial (tokens ++ [semicolon]) (.expression value) depth

/-- The kinds of phrases: what follows the word of a condition is a category of its own. -/
inductive Category where
  | statement
  | conditional
  | declaration
  | sequence

/-- The tokens of a statement, a conditional, a declaration or a sequence of declarations. -/
inductive Phrase : Category → List Token → Statement → Nat → Prop where
  | expression {semicolon : Token} {tokens : List Token} {value : Expression} {depth : Nat}
      (given : Whole tokens value depth) (ends : semicolon.kind = .semicolon) :
      Phrase .statement (tokens ++ [semicolon]) (.expression value) (depth + 1)
  | print {word semicolon : Token} {tokens : List Token} {value : Expression} {depth : Nat}
      (introduces : word.kind = .keyword .printKw) (given : Whole tokens value depth)
      (ends : semicolon.kind = .semicolon) :
      Phrase .statement (word :: tokens ++ [semicolon]) (.print value) (depth + 1)
  | block {opening closing : Token} {tokens : List Token} {body : Statement} {depth : Nat}
      (opens : opening.kind = .leftBrace) (inside : Phrase .sequence tokens body depth)
      (closes : closing.kind = .rightBrace) :
      Phrase .statement (opening :: tokens ++ [closing]) (.block body) (depth + 1)
  | branch {word : Token} {tokens : List Token} {conditional : Statement} {depth : Nat}
      (introduces : word.kind = .keyword .ifKw)
      (follows : Phrase .conditional tokens conditional depth) :
      Phrase .statement (word :: tokens) conditional (depth + 1)
  | whileLoop {word opening closing : Token} {test inside : List Token} {condition : Expression}
      {body : Statement} {depth inner : Nat} (introduces : word.kind = .keyword .whileKw)
      (opens : opening.kind = .leftParen) (tested : Whole test condition depth)
      (closes : closing.kind = .rightParen) (repeated : Phrase .statement inside body inner) :
      Phrase .statement (word :: opening :: test ++ closing :: inside) (.whileLoop condition body)
        (max depth inner + 1)
  | forLoop {word opening : Token} {start test advance inside : List Token} {initial : Statement}
      {condition increment : Option Expression} {body : Statement}
      {depth tests rounds inner : Nat}
      (introduces : word.kind = .keyword .forKw) (opens : opening.kind = .leftParen)
      (starts : Initial start initial depth) (tested : Clause .semicolon test condition tests)
      (advances : Clause .rightParen advance increment rounds)
      (repeated : Phrase .statement inside body inner) :
      Phrase .statement (word :: opening :: start ++ test ++ advance ++ inside)
        (.forLoop initial condition increment body)
        (max (max depth tests) (max rounds inner) + 1)
  | breakLoop {word semicolon : Token} (introduces : word.kind = .keyword .breakKw)
      (ends : semicolon.kind = .semicolon) :
      Phrase .statement [word, semicolon] .breakLoop 1
  | continueLoop {word semicolon : Token} (introduces : word.kind = .keyword .continueKw)
      (ends : semicolon.kind = .semicolon) :
      Phrase .statement [word, semicolon] .continueLoop 1
  | returnValue {word : Token} {tokens : List Token} {value : Option Expression} {depth : Nat}
      (introduces : word.kind = .keyword .returnKw)
      (given : Clause .semicolon tokens value depth) :
      Phrase .statement (word :: tokens) (.returnValue value) (depth + 1)
  | alone {opening closing : Token} {test inside : List Token} {condition : Expression}
      {met : Statement} {depth inner : Nat} (opens : opening.kind = .leftParen)
      (tested : Whole test condition depth) (closes : closing.kind = .rightParen)
      (chosen : Phrase .statement inside met inner) :
      Phrase .conditional (opening :: test ++ closing :: inside)
        (.conditional condition met .empty) (max depth inner)
  | otherwise {opening closing word : Token} {test inside others : List Token}
      {condition : Expression} {met unmet : Statement} {depth inner last : Nat}
      (opens : opening.kind = .leftParen) (tested : Whole test condition depth)
      (closes : closing.kind = .rightParen) (chosen : Phrase .statement inside met inner)
      (closed : met.isOpen = false) (introduces : word.kind = .keyword .elseKw)
      (other : Phrase .statement others unmet last) :
      Phrase .conditional (opening :: test ++ closing :: inside ++ word :: others)
        (.conditional condition met unmet) (max (max depth inner) last)
  | alternative {opening closing word : Token} {test inside others : List Token}
      {condition : Expression} {met unmet : Statement} {depth inner last : Nat}
      (opens : opening.kind = .leftParen) (tested : Whole test condition depth)
      (closes : closing.kind = .rightParen) (chosen : Phrase .statement inside met inner)
      (closed : met.isOpen = false) (introduces : word.kind = .keyword .elifKw)
      (other : Phrase .conditional others unmet last) :
      Phrase .conditional (opening :: test ++ closing :: inside ++ word :: others)
        (.conditional condition met unmet) (max (max depth inner) (last + 1))
  | statement {tokens : List Token} {statement : Statement} {depth : Nat}
      (plain : Phrase .statement tokens statement depth) :
      Phrase .declaration tokens statement depth
  | varDeclaration {word : Token} {tokens : List Token} {name : String}
      {initial : Option Expression} {depth : Nat} (introduces : word.kind = .keyword .varKw)
      (declares : Variable tokens name initial depth) :
      Phrase .declaration (word :: tokens) (.varDeclaration name initial) depth
  | funDeclaration {word name opening closing brace ending : Token} {names inside : List Token}
      {parameters : List String} {body : Statement} {depth : Nat}
      (introduces : word.kind = .keyword .funKw) (named : name.kind = .identifier)
      (opens : opening.kind = .leftParen) (takes : Separated Parameter names parameters)
      (closes : closing.kind = .rightParen) (begins : brace.kind = .leftBrace)
      (does : Phrase .sequence inside body depth) (ends : ending.kind = .rightBrace) :
      Phrase .declaration
        (word :: name :: opening :: names ++ closing :: brace :: inside ++ [ending])
        (.funDeclaration name.lexeme parameters body) (depth + 1)
  | nothing : Phrase .sequence [] .empty 0
  | more {first rest : List Token} {statement others : Statement} {depth inner : Nat}
      (declares : Phrase .declaration first statement depth)
      (follows : Phrase .sequence rest others inner) :
      Phrase .sequence (first ++ rest) (.sequence statement others) (max depth inner)

/-- The tokens of a whole program, with the one at the end of the text, and its depth. -/
def Nested.Program (tokens : List Token) (body : Statement) (depth : Nat) : Prop :=
  ∃ front ending, tokens = front ++ [ending] ∧ ending.kind = .endOfText ∧
    Phrase .sequence front body depth

/-- The tokens of a whole program, however deep it nests. -/
def Program (tokens : List Token) (body : Statement) : Prop :=
  ∃ depth, Nested.Program tokens body depth

theorem Operand.exists_whole {expression : Expression}
    (operand : Operand .assignment tokens expression) :
    ∃ depth, Whole tokens expression depth := by
  rcases operand with ⟨level, inner, _, chain⟩
  exact ⟨inner + 1, level, inner, chain, rfl⟩

theorem Whole.operand {expression : Expression} {depth : Nat}
    (whole : Whole tokens expression depth) : Operand .assignment tokens expression := by
  rcases whole with ⟨level, inner, chain, _⟩
  exact ⟨level, inner, chain.assignment_le, chain⟩

theorem Phrase.placed (phrase : Phrase category tokens statement depth) :
    statement.Placed ∧
      (category = .statement ∨ category = .conditional → statement.declared = []) := by
  induction phrase with
  | forLoop introduces opens starts tested advances repeated ih =>
    have clause : ∀ {tokens : List Token} {initial : Statement} {depth : Nat},
        Initial tokens initial depth → initial.isClause = true := by
      intro tokens initial depth derives
      cases derives <;> rfl
    exact ⟨⟨clause starts, ih.1, ih.2 (Or.inl rfl)⟩, fun _ => rfl⟩
  | _ => simp_all [Statement.Placed, Statement.declared]

/-- Whether every token has characters. -/
def Written (tokens : List Token) : Prop :=
  ∀ token ∈ tokens, token.lexeme ≠ ""

@[simp] theorem written_cons {token : Token} :
    Written (token :: tokens) ↔ token.lexeme ≠ "" ∧ Written tokens := by
  simp [Written]

@[simp] theorem written_append {front back : List Token} :
    Written (front ++ back) ↔ Written front ∧ Written back := by
  simp only [Written, List.mem_append]
  constructor
  · exact fun all => ⟨fun token present => all token (Or.inl present),
      fun token present => all token (Or.inr present)⟩
  · rintro ⟨inFront, inBack⟩ token (present | present)
    · exact inFront token present
    · exact inBack token present

theorem Chain.named {expression : Expression} (chain : Chain tokens expression level depth) :
    Written tokens → expression.Named := by
  refine @Chain.rec (fun tokens expression _ _ _ => Written tokens → expression.Named)
    (fun tokens items _ _ => Written tokens → Expression.AllNamed items)
    ?_ ?_ ?_ ?_ ?_ ?_ ?_ ?_ ?_ ?_ ?_ ?_ ?_ ?_ tokens expression level depth chain
  all_goals simp_all [Expression.Named, Expression.AllNamed]

theorem Whole.named {expression : Expression} (whole : Whole tokens expression depth)
    (written : Written tokens) : expression.Named := by
  rcases whole with ⟨_, _, chain, _⟩
  exact chain.named written

theorem Variable.named {name : String} {initial : Option Expression}
    (declares : Variable tokens name initial depth) (written : Written tokens) :
    ∀ value ∈ initial, value.Named := by
  cases declares with
  | plain => simp
  | initialized _ _ given _ =>
    simp only [List.cons_append, written_cons, written_append] at written
    simpa using given.named written.2.2.1

theorem Clause.named {ending : Token.Kind} {given : Option Expression}
    (clause : Clause ending tokens given depth) (written : Written tokens) :
    ∀ value ∈ given, value.Named := by
  cases clause with
  | missing => simp
  | present given _ =>
    rw [written_append] at written
    simpa using given.named written.1

theorem Initial.named {initial : Statement} (starts : Initial tokens initial depth)
    (written : Written tokens) : initial.Named := by
  cases starts with
  | missing => trivial
  | varDeclaration _ declares => exact declares.named (written_cons.mp written).2
  | expression given _ => exact given.named (written_append.mp written).1

/-- The names in a phrase are those of its tokens. -/
theorem Phrase.named (phrase : Phrase category tokens statement depth) (written : Written tokens) :
    statement.Named := by
  induction phrase with
  | expression given _ => exact given.named (written_append.mp written).1
  | print _ given _ =>
    exact given.named (written_append.mp (written_cons.mp written).2).1
  | whileLoop _ _ tested _ _ ih =>
    simp only [List.cons_append, written_cons, written_append] at written
    exact ⟨tested.named written.2.2.1, ih written.2.2.2.2⟩
  | forLoop _ _ starts tested advances _ ih =>
    simp only [List.cons_append, List.append_assoc, written_cons, written_append] at written
    rcases written with ⟨_, _, inStart, inTest, inAdvance, inBody⟩
    exact ⟨starts.named inStart, tested.named inTest, advances.named inAdvance, ih inBody⟩
  | returnValue _ given => exact given.named (written_cons.mp written).2
  | alone _ tested _ _ ih =>
    simp only [List.cons_append, written_cons, written_append] at written
    exact ⟨tested.named written.2.1, ih written.2.2.2, trivial⟩
  | otherwise _ tested _ _ _ _ _ ihMet ihUnmet | alternative _ tested _ _ _ _ _ ihMet ihUnmet =>
    simp only [List.cons_append, List.append_assoc, written_cons, written_append] at written
    rcases written with ⟨_, inTest, _, inMet, _, inUnmet⟩
    exact ⟨tested.named inTest, ihMet inMet, ihUnmet inUnmet⟩
  | varDeclaration _ declares => exact declares.named (written_cons.mp written).2
  | _ => simp_all [Statement.Named]

end Grammar

end StackScript
