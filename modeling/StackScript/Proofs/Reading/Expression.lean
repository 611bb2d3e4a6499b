import StackScript.Proofs.Action
import StackScript.Proofs.Grammar
import StackScript.Proofs.Writing

/-!
# What the compiler reads

A program that the compiler accepts is one of the grammar, and its script is its tree written out.
Each action of the compiler reads the tokens of a phrase and writes the tree of that phrase, given
that the actions one level below it do; below the last level nothing succeeds.

Operators are where the compiler and the grammar differ most. The compiler reads a first operand
and then extends it for as long as the next token binds tightly enough. What makes the extension a
tree of the grammar is that the next token never binds more tightly than the expression read so far
allows its left operand to.
-/

namespace StackScript

open Compile (Effect)

theorem Compile.effect_of_ok {α : Type} {action : Compile α} {result : α}
    {compiler compiler' : Compiler} (ran : action compiler = .ok result compiler') :
    Effect action compiler.draft result compiler'.draft :=
  ⟨compiler, compiler', ran, rfl, rfl⟩

namespace Token.Kind

variable {kind : Token.Kind}

theorem leading?_eq_some {form : Leading} (starts : kind.leading? = some form) :
    (form = .grouping → kind = .leftParen) ∧ (form = .variable → kind = .identifier) ∧
      (form = .string → kind = .string) ∧ (form = .number → kind = .number) := by
  unfold leading? at starts
  split at starts <;> cases starts <;> simp

theorem trailing?_eq_some {form : Trailing} (goesOn : kind.trailing? = some form) :
    (form = .call → kind = .leftParen) ∧ (form = .and → kind = .keyword .andKw) ∧
      (form = .or → kind = .keyword .orKw) := by
  unfold trailing? at goesOn
  split at goesOn <;> cases goesOn <;> simp

end Token.Kind

namespace Trailing

/-- How tightly the expression in front of a continuation has to bind. -/
def frontLevel : Trailing → Precedence
  | call => .call
  | binary operator => operator.precedence
  | and => .equality
  | or => .and

end Trailing

namespace Compiler

/-- Whether an operand was read and written. -/
def ReadOperand (level : Precedence) (compiler compiler' : Compiler) : Prop :=
  ∃ tokens expression, compiler.Reads tokens compiler' ∧
    Grammar.Operand level tokens expression ∧
    expression.Writes compiler.draft compiler'.draft

def ReadOperandRest (level : Precedence) (compiler compiler' : Compiler) : Prop :=
  ∃ tokens expression, compiler.Reads tokens compiler' ∧
    Grammar.Operand level (compiler.previous :: tokens) expression ∧
    expression.Writes compiler.draft compiler'.draft

/-- Whether the compiler has read what continues an expression, behind its first token. -/
def ReadContinuation (form : Trailing) (compiler compiler' : Compiler) : Prop :=
  ∃ tokens, compiler.Reads tokens compiler' ∧
    ∀ {front : List Token} {left : Expression} {word : Token} {before : Draft},
      Grammar.Operand form.frontLevel front left → word.kind.trailing? = some form →
      left.Writes before compiler.draft → ∃ tree,
        Grammar.Operand form.precedence (front ++ word :: tokens) tree ∧
          tree.Writes before compiler'.draft

/-- Whether the token ahead cannot extend an expression that binds as tightly as `level`. -/
def Saturated (level : Precedence) (compiler : Compiler) : Prop :=
  ¬level ≤ compiler.current.kind.precedence

/-- Whether whatever continues an expression at `level` finds a left operand in it. -/
def Extends (level : Precedence) (compiler : Compiler) : Prop :=
  ∀ form, compiler.current.kind.trailing? = some form → form.frontLevel ≤ level

/-- Whether no branch is ahead. -/
def EndsBranches (compiler : Compiler) : Prop :=
  compiler.current.kind ≠ .keyword .elifKw ∧ compiler.current.kind ≠ .keyword .elseKw

/-- Whether the compiler has read a phrase and written it; an open one is followed by no branch. -/
def ReadPhrase (category : Grammar.Category) (compiler compiler' : Compiler) : Prop :=
  ∃ tokens statement, compiler.Reads tokens compiler' ∧
    (∃ depth, Grammar.Phrase category tokens statement depth) ∧
    (∃ stops, statement.Writes compiler.draft compiler'.draft stops) ∧
    (statement.isOpen = true → compiler'.EndsBranches)

/-- The same behind its first token. -/
def ReadPhraseRest (category : Grammar.Category) (compiler compiler' : Compiler) : Prop :=
  ∃ tokens statement, compiler.Reads tokens compiler' ∧
    (∃ depth, Grammar.Phrase category (compiler.previous :: tokens) statement depth) ∧
    (∃ stops, statement.Writes compiler.draft compiler'.draft stops) ∧
    (statement.isOpen = true → compiler'.EndsBranches)

variable {level : Precedence} {compiler middle compiler' : Compiler} {tokens : List Token}

theorem Reads.quietly {α : Type} {action : Compile α} {result : α}
    (reads : compiler.Reads tokens middle) (quiet : Compile.Quiet SamePlace action)
    (ran : action middle = .ok result compiler') : compiler.Reads tokens compiler' := by
  simpa using reads.trans (quiet.samePlace ran).reads

namespace Saturated

theorem quietly {α : Type} {action : Compile α} {result : α} (saturated : compiler.Saturated level)
    (quiet : Compile.Quiet SamePlace action) (ran : action compiler = .ok result compiler') :
    compiler'.Saturated level := by
  rw [Saturated, (quiet.samePlace ran).current_eq]
  exact saturated

theorem extends_front {front : Precedence} (saturated : compiler.Saturated level)
    (loose : ∀ form : Trailing, ¬level ≤ form.precedence → form.frontLevel ≤ front) :
    compiler.Extends front := by
  intro form next
  apply loose form
  simpa [Saturated, Token.Kind.precedence, next] using saturated

theorem extends_same (saturated : compiler.Saturated level) : compiler.Extends level := by
  apply saturated.extends_front
  intro form
  cases form with
  | binary operator => cases operator <;> cases level <;> decide
  | _ => cases level <;> decide

end Saturated

namespace ReadOperand

theorem looser {loose : Precedence} (read : compiler.ReadOperand level compiler')
    (binds : loose ≤ level) : compiler.ReadOperand loose compiler' := by
  rcases read with ⟨tokens, expression, reads, derives, writes⟩
  exact ⟨tokens, expression, reads, derives.looser binds, writes⟩

theorem ends (read : compiler.ReadOperand level compiler') (ends : compiler.Ends) :
    compiler'.Ends := by
  rcases read with ⟨_, _, reads, _, _⟩
  exact reads.ends ends

theorem of_rest (advanced : compiler.Advances middle)
    (rest : middle.ReadOperandRest level compiler') : compiler.ReadOperand level compiler' := by
  rcases rest with ⟨tokens, expression, reads, derives, writes⟩
  rw [advanced.previous_eq] at derives
  rw [advanced.draft_eq] at writes
  exact ⟨compiler.current :: tokens, expression, advanced.reads.trans reads, derives, writes⟩

end ReadOperand

theorem ReadPhrase.of_rest {category : Grammar.Category} (advanced : compiler.Advances middle)
    (rest : middle.ReadPhraseRest category compiler') : compiler.ReadPhrase category compiler' := by
  rcases rest with ⟨tokens, statement, reads, derives, writes, last⟩
  rw [advanced.previous_eq] at derives
  rw [advanced.draft_eq] at writes
  exact ⟨compiler.current :: tokens, statement, advanced.reads.trans reads, derives, writes, last⟩

end Compiler

namespace Grammar

def FunctionTail (tokens : List Token) (parameters : List String) (body : Statement) : Prop :=
  ∃ (opening closing brace ending : Token) (names inside : List Token),
    tokens = opening :: names ++ closing :: brace :: inside ++ [ending] ∧
    opening.kind = .leftParen ∧ Separated Parameter names parameters ∧
    closing.kind = .rightParen ∧ brace.kind = .leftBrace ∧
    (∃ depth, Phrase .sequence inside body depth) ∧ ending.kind = .rightBrace

end Grammar

/-- Whether the actions of a level read phrases of the grammar and write their trees. -/
structure Parser.Sound (parser : Parser) : Prop where
  operand : ∀ {level : Precedence} {compiler compiler' : Compiler},
    .assignment ≤ level → level ≤ .unary → compiler.Ends →
    parser.operand level compiler = .ok () compiler' →
    compiler.ReadOperand level compiler' ∧ compiler'.Saturated level
  statement : ∀ {compiler compiler' : Compiler}, compiler.Ends →
    parser.statement compiler = .ok () compiler' → compiler.ReadPhrase .statement compiler'
  alternative : ∀ {compiler compiler' : Compiler}, compiler.Ends →
    parser.alternative compiler = .ok () compiler' → compiler.ReadPhrase .conditional compiler'
  functionBody : ∀ {compiler compiler' : Compiler}, compiler.Ends →
    parser.functionBody compiler = .ok () compiler' →
    ∃ tokens parameters body function stops, compiler.Reads tokens compiler' ∧
      Grammar.FunctionTail tokens parameters body ∧
      Statement.WritesFunction compiler.previous.lexeme parameters body function stops ∧
      Effect (Compile.emitConstant (.function function)) compiler.draft () compiler'.draft

namespace Compile

variable {inner : Parser} {compiler compiler' start : Compiler} {level reached : Precedence}
  {count count' : Nat} {bound : List Token}

theorem expression_read (sound : inner.Sound) (ends : compiler.Ends)
    (ran : inner.expression compiler = .ok () compiler') :
    compiler.ReadOperand .assignment compiler' ∧ compiler'.Saturated .assignment :=
  sound.operand (Precedence.le_refl _) (by decide) ends ran

theorem closed_read {kind : Token.Kind} {expectation : Expectation} {valued : Compiler}
    (sound : inner.Sound) (ends : compiler.Ends)
    (ranValue : inner.expression compiler = .ok () valued)
    (ranEnd : expect kind expectation valued = .ok () compiler') (more : kind ≠ .endOfText) :
    ∃ tokens value, compiler.Reads (tokens ++ [valued.current]) compiler' ∧
      (∃ depth, Grammar.Whole tokens value depth) ∧ valued.current.kind = kind ∧
      value.Writes compiler.draft compiler'.draft := by
  rcases expression_read sound ends ranValue with ⟨⟨tokens, value, reads, derives, writes⟩, _⟩
  rcases expect_advances ranEnd (reads.ends ends) more with ⟨closes, advanced⟩
  rw [← advanced.draft_eq] at writes
  exact ⟨tokens, value, reads.trans advanced.reads, derives.exists_whole, closes, writes⟩

/-! ## First operands -/

theorem number_read (kind : compiler.previous.kind = .number)
    (ran : number compiler = .ok () compiler') : compiler.ReadOperandRest .primary compiler' := by
  simp only [number, bind_eq_ok, lastLexeme_eq_ok] at ran
  rcases ran with ⟨_, _, ⟨rfl, rfl⟩, ran⟩
  cases denotes : Number.parse? compiler.previous.lexeme with
  | none =>
    rw [denotes] at ran
    exact absurd ran fail_ne_ok
  | some value =>
    rw [denotes] at ran
    refine ⟨[], .number value, (Compiler.Reads.refl _).quietly (.emitConstant _) ran,
      Grammar.Chain.operand (.number kind denotes), ?_⟩
    simpa [Expression.Writes] using effect_of_ok ran

theorem string_read (kind : compiler.previous.kind = .string)
    (ran : string compiler = .ok () compiler') : compiler.ReadOperandRest .primary compiler' := by
  simp only [string, bind_eq_ok, lastLexeme_eq_ok] at ran
  rcases ran with ⟨_, _, ⟨rfl, rfl⟩, ran⟩
  refine ⟨[], .string _, (Compiler.Reads.refl _).quietly (.emitConstant _) ran,
    Grammar.Chain.operand (.string kind), ?_⟩
  simpa [Expression.Writes] using effect_of_ok ran

theorem literal_read {value : KeywordLiteral}
    (kind : compiler.previous.kind.leading? = some (.literal value))
    (ran : emit value.opcode compiler = .ok () compiler') :
    compiler.ReadOperandRest .primary compiler' := by
  refine ⟨[], .literal value, (Compiler.Reads.refl _).quietly (.emit _) ran,
    Grammar.Chain.operand (.literal kind), ?_⟩
  simpa [Expression.Writes] using effect_of_ok ran

theorem grouping_read (sound : inner.Sound) (ends : compiler.Ends)
    (kind : compiler.previous.kind = .leftParen)
    (ran : leading inner true .grouping compiler = .ok () compiler') :
    compiler.ReadOperandRest .primary compiler' := by
  simp only [leading, bind_eq_ok] at ran
  rcases ran with ⟨_, read, ranInner, ranClose⟩
  rcases closed_read sound ends ranInner ranClose (by decide) with
    ⟨tokens, tree, reads, ⟨_, _, _, inside, _⟩, closes, writes⟩
  exact ⟨tokens ++ [read.current], tree, reads,
    Grammar.Chain.operand (.grouping kind inside closes), writes⟩

theorem unary_read {operator : UnaryOperator} (sound : inner.Sound) (ends : compiler.Ends)
    (kind : compiler.previous.kind.leading? = some (.unary operator))
    (ran : leading inner true (.unary operator) compiler = .ok () compiler') :
    compiler.ReadOperandRest .unary compiler' ∧ compiler'.Saturated .unary := by
  simp only [leading, bind_eq_ok] at ran
  rcases ran with ⟨_, read, ranInner, ranEmit⟩
  rcases sound.operand (by decide) (Precedence.le_refl _) ends ranInner with
    ⟨⟨tokens, tree, reads, ⟨_, _, tight, operated⟩, writes⟩, saturated⟩
  refine ⟨⟨tokens, .unary operator tree, reads.quietly (.emit _) ranEmit,
    Grammar.Chain.operand (.unary kind operated tight), ?_⟩, saturated.quietly (.emit _) ranEmit⟩
  simpa [Expression.Writes] using ⟨_, writes, effect_of_ok ranEmit⟩

theorem reference_read {assignable : Bool} (sound : inner.Sound) (ends : compiler.Ends)
    (kind : compiler.previous.kind = .identifier)
    (ran : variableUse inner assignable compiler = .ok () compiler') :
    compiler.ReadOperandRest .primary compiler' ∨
      (assignable = true ∧ compiler.ReadOperandRest .assignment compiler' ∧
        compiler'.Saturated .assignment) := by
  simp only [variableUse, bind_eq_ok, lastLexeme_eq_ok, lookahead_eq_ok] at ran
  rcases ran with ⟨_, _, ⟨rfl, rfl⟩, reference, resolved, ranResolve, _, _, ⟨rfl, rfl⟩, ran⟩
  have readsName := (Compiler.Reads.refl _).quietly (.resolve _) ranResolve
  have resolves := effect_of_ok ranResolve
  split at ran
  · next assigns =>
    simp only [Bool.and_eq_true, decide_eq_true_eq] at assigns
    simp only [bind_eq_ok] at ran
    rcases ran with ⟨_, signed, ranSign, _, valued, ranValue, ranSet⟩
    have resolvedEnds := readsName.ends ends
    have sign := advance_advances ranSign resolvedEnds (by simp [assigns.2])
    rcases expression_read sound (sign.reads.ends resolvedEnds) ranValue with
      ⟨⟨tokens, tree, reads, ⟨_, _, _, assigned⟩, writes⟩, saturated⟩
    refine Or.inr ⟨assigns.1, ⟨resolved.current :: tokens, .assign _ tree, ?_,
      Grammar.Chain.operand (.assign kind assigns.2 assigned), ?_⟩,
      saturated.quietly (.emitSet _) ranSet⟩
    · exact ((readsName.trans sign.reads).trans reads).quietly (.emitSet _) ranSet
    · rw [sign.draft_eq] at writes
      simpa [Expression.Writes] using ⟨reference, _, resolves, _, writes, effect_of_ok ranSet⟩
  · refine Or.inl ⟨[], .reference _, readsName.quietly (.emitGet _) ran,
      Grammar.Chain.operand (.reference kind), ?_⟩
    simpa [Expression.Writes] using ⟨reference, _, resolves, effect_of_ok ran⟩

theorem leading_read {form : Leading} (sound : inner.Sound) (tight : level ≤ .unary)
    (ends : compiler.Ends) (kind : compiler.previous.kind.leading? = some form)
    (ran : leading inner (decide (level ≤ .assignment)) form compiler = .ok () compiler') :
    ∃ reached, level ≤ reached ∧ compiler.ReadOperandRest reached compiler' ∧
      compiler'.Extends reached := by
  have primary : compiler.ReadOperandRest .primary compiler' →
      ∃ reached, level ≤ reached ∧ compiler.ReadOperandRest reached compiler' ∧
        compiler'.Extends reached := fun read =>
    ⟨.primary, Precedence.le_primary level, read, fun form _ => Precedence.le_primary _⟩
  have starts := Token.Kind.leading?_eq_some kind
  cases form with
  | grouping => exact primary (grouping_read sound ends (starts.1 rfl) ran)
  | unary operator =>
    rcases unary_read sound ends kind ran with ⟨read, saturated⟩
    exact ⟨.unary, tight, read, saturated.extends_same⟩
  | «variable» =>
    rcases reference_read sound ends (starts.2.1 rfl) ran with read | ⟨assignable, read, saturated⟩
    · exact primary read
    · exact ⟨.assignment, by simpa using assignable, read, saturated.extends_same⟩
  | string => exact primary (string_read (starts.2.2.1 rfl) ran)
  | number => exact primary (number_read (starts.2.2.2 rfl) ran)
  | literal value => exact primary (literal_read kind ran)

/-! ## Lists with commas -/

/-- One item after the other. -/
inductive Chain {β σ : Type} (Step : β → σ → σ → Prop) : List β → σ → σ → Prop where
  | nil (state : σ) : Chain Step [] state state
  | cons {item : β} {items : List β} {before middle after : σ} (first : Step item before middle)
      (rest : Chain Step items middle after) : Chain Step (item :: items) before after

theorem separatedWithin_read {α β : Type} {item : α → Compile α} {Item : List Token → β → Prop}
    {Step : β → α × Draft → α × Draft → Prop}
    (each : ∀ {state state' : α} {compiler compiler' : Compiler}, compiler.Ends →
      item state compiler = .ok state' compiler' → ∃ tokens entry,
        compiler.Reads tokens compiler' ∧ Item tokens entry ∧
          Step entry (state, compiler.draft) (state', compiler'.draft)) {state state' : α}
    (ends : compiler.Ends)
    (ran : separatedWithin item bound state compiler = .ok state' compiler') :
    ∃ tokens first rest, compiler.Reads tokens compiler' ∧
      Grammar.Separated Item tokens (first :: rest) ∧
      Chain Step (first :: rest) (state, compiler.draft) (state', compiler'.draft) := by
  induction bound generalizing state compiler with
  | nil =>
    rcases each ends ran with ⟨tokens, entry, reads, derives, step⟩
    exact ⟨tokens, entry, [], reads, .last derives, .cons step (.nil _)⟩
  | cons token bound ih =>
    simp only [separatedWithin, bind_eq_ok] at ran
    rcases ran with ⟨middle, read, ranItem, accepted, behind, ranComma, ran⟩
    rcases each ends ranItem with ⟨tokens, entry, reads, derives, step⟩
    have readEnds := reads.ends ends
    rcases accept_advances ranComma readEnds (by decide) with ⟨rfl, comma, advanced⟩ | ⟨rfl, _, rfl⟩
    · rcases ih (advanced.reads.ends readEnds) ran with
        ⟨others, next, rest, readsOthers, derivesOthers, chain⟩
      rw [advanced.draft_eq] at chain
      refine ⟨tokens ++ read.current :: others, entry, next :: rest, ?_,
        .more derives comma derivesOthers, .cons step chain⟩
      simpa using (reads.trans advanced.reads).trans readsOthers
    · rcases pure_eq_ok.mp ran with ⟨rfl, rfl⟩
      exact ⟨tokens, entry, [], reads, .last derives, .cons step (.nil _)⟩

/-! ## Continuations -/

def ArgumentStep (argument : Expression) (before after : Nat × Draft) : Prop :=
  argument.Writes before.2 after.2 ∧ before.1 ≠ maxArguments ∧ after.1 = before.1 + 1

theorem arguments_chain {arguments : List Expression} {before after : Draft}
    (chain : Chain ArgumentStep arguments (count, before) (count', after))
    (few : count ≤ maxArguments) :
    Expression.WritesAll arguments before after ∧ count' = count + arguments.length ∧
      count' ≤ maxArguments := by
  induction arguments generalizing count before with
  | nil =>
    cases chain
    exact ⟨rfl, rfl, few⟩
  | cons argument arguments ih =>
    rcases chain with _ | ⟨first, rest⟩
    rename_i middle
    rcases middle with ⟨next, draft⟩
    rcases first with ⟨writes, free, rfl⟩
    simp only at free
    rcases ih rest (by omega) with ⟨writesRest, counted, bounded⟩
    refine ⟨?_, by simp only [List.length_cons]; omega, bounded⟩
    exact ⟨draft, writes, writesRest⟩

section

variable (sound : inner.Sound) (ends : compiler.Ends)
include sound ends

theorem argument_read (ran : argument inner count compiler = .ok count' compiler') :
    ∃ tokens expression, compiler.Reads tokens compiler' ∧
      Grammar.Operand .assignment tokens expression ∧
      ArgumentStep expression (count, compiler.draft) (count', compiler'.draft) := by
  simp only [argument, bind_eq_ok] at ran
  rcases ran with ⟨_, valued, ranValue, ranCount⟩
  rcases expression_read sound ends ranValue with ⟨⟨tokens, tree, reads, derives, writes⟩, _⟩
  split at ranCount
  · exact absurd ranCount fail_ne_ok
  · next free =>
    rcases pure_eq_ok.mp ranCount with ⟨rfl, rfl⟩
    exact ⟨tokens, tree, reads, derives, writes, free, rfl⟩

theorem arguments_read (ran : arguments inner compiler = .ok count compiler') :
    ∃ (tokens : List Token) (closing : Token) (given : List Expression),
      compiler.Reads (tokens ++ [closing]) compiler' ∧
      (∃ depth, Grammar.Given tokens given depth) ∧
      closing.kind = .rightParen ∧ Expression.WritesAll given compiler.draft compiler'.draft ∧
      given.length ≤ maxArguments ∧ count = given.length := by
  simp only [arguments, bind_eq_ok, lookahead_eq_ok] at ran
  rcases ran with ⟨_, _, ⟨rfl, rfl⟩, ran⟩
  split at ran
  · simp only [bind_eq_ok, pure_eq_ok] at ran
    rcases ran with ⟨_, _, ⟨rfl, rfl⟩, _, _, ranClose, rfl, rfl⟩
    rcases expect_advances ranClose ends (by decide) with ⟨closes, advanced⟩
    refine ⟨[], compiler.current, [], by simpa using advanced.reads, ⟨_, .none⟩, closes, ?_, ?_,
      rfl⟩
    · simp [Expression.WritesAll, advanced.draft_eq]
    · simp
  · simp only [separated, bind_eq_ok, get_eq_ok, pure_eq_ok] at ran
    rcases ran with ⟨_, read, ⟨_, _, ⟨rfl, rfl⟩, ran⟩, _, _, ranClose, rfl, rfl⟩
    rcases separatedWithin_read (argument_read sound) ends ran with
      ⟨tokens, first, rest, reads, derives, chain⟩
    rcases arguments_chain chain (by decide) with ⟨writes, total, bounded⟩
    rcases expect_advances ranClose (reads.ends ends) (by decide) with ⟨closes, advanced⟩
    refine ⟨tokens, read.current, first :: rest, reads.trans advanced.reads, derives.exists_given,
      closes, ?_, ?_, ?_⟩
    · rw [advanced.draft_eq]
      exact writes
    · omega
    · omega

theorem call_read (ran : trailing inner .call compiler = .ok () compiler') :
    compiler.ReadContinuation .call compiler' := by
  simp only [trailing, bind_eq_ok] at ran
  rcases ran with ⟨count, given, ranArguments, ranEmit⟩
  rcases arguments_read sound ends ranArguments with
    ⟨tokens, closing, values, reads, ⟨_, derives⟩, closes, writes, few, rfl⟩
  refine ⟨_, reads.quietly (.emitWith _ _) ranEmit, ?_⟩
  rintro front left word before ⟨_, _, tight, called⟩ kind writesFront
  have opens := (Token.Kind.trailing?_eq_some kind).1 rfl
  have whole := Grammar.Chain.operand (.call called tight opens derives closes)
  rw [List.append_assoc, List.cons_append] at whole
  exact ⟨.call left values, whole, _, _, writesFront, writes, few, effect_of_ok ranEmit⟩

theorem binary_read {operator : BinaryOperator}
    (ran : trailing inner (.binary operator) compiler = .ok () compiler') :
    compiler.ReadContinuation (.binary operator) compiler' ∧
      compiler'.Saturated operator.precedence.tighter := by
  simp only [trailing, bind_eq_ok] at ran
  rcases ran with ⟨_, operated, ranOperand, ranEmit⟩
  have bounds : .assignment ≤ operator.precedence.tighter ∧
      operator.precedence.tighter ≤ .unary := by
    cases operator <;> decide
  rcases sound.operand bounds.1 bounds.2 ends ranOperand with
    ⟨⟨back, right, reads, ⟨_, _, tighter, behind⟩, writes⟩, saturated⟩
  refine ⟨⟨back, reads.quietly (.forM .emit) ranEmit, ?_⟩, saturated.quietly (.forM .emit) ranEmit⟩
  rintro front left word before ⟨_, _, tight, chain⟩ kind writesFront
  exact ⟨.binary operator left right,
    Grammar.Chain.operand (.binary chain tight kind behind tighter),
    _, _, writesFront, writes, effect_of_ok ranEmit⟩

theorem and_read (ran : trailing inner .and compiler = .ok () compiler') :
    compiler.ReadContinuation .and compiler' ∧ compiler'.Saturated .and := by
  simp only [trailing, bind_eq_ok] at ran
  rcases ran with ⟨decided, jumped, ranJump, _, popped, ranPop, _, operated, ranOperand, ranPatch⟩
  have writing := ((Quiet.emitJump _).samePlace ranJump).trans ((Quiet.emit _).samePlace ranPop)
  rcases sound.operand (by decide) (by decide) (writing.reads.ends ends) ranOperand with
    ⟨⟨back, right, reads, ⟨_, _, tighter, behind⟩, writes⟩, saturated⟩
  refine ⟨⟨back, (writing.reads.trans reads).quietly (.patchJump _) ranPatch, ?_⟩,
    saturated.quietly (.patchJump _) ranPatch⟩
  rintro front left word before ⟨_, _, tight, chain⟩ kind writesFront
  have isWord := (Token.Kind.trailing?_eq_some kind).2.1 rfl
  exact ⟨.and left right, Grammar.Chain.operand (.and chain tight isWord behind tighter),
    _, _, _, _, decided, writesFront, effect_of_ok ranJump, effect_of_ok ranPop, writes,
    effect_of_ok ranPatch⟩

theorem or_read (ran : trailing inner .or compiler = .ok () compiler') :
    compiler.ReadContinuation .or compiler' ∧ compiler'.Saturated .or := by
  simp only [trailing, bind_eq_ok] at ran
  rcases ran with ⟨undecided, tested, ranTest, decided, jumped, ranJump, _, patched, ranFirst, _,
    popped, ranPop, _, operated, ranOperand, ranPatch⟩
  have writing := (((Quiet.emitJump _).samePlace ranTest).trans
    ((Quiet.emitJump _).samePlace ranJump)).trans (((Quiet.patchJump _).samePlace ranFirst).trans
    ((Quiet.emit _).samePlace ranPop))
  rcases sound.operand (by decide) (by decide) (writing.reads.ends ends) ranOperand with
    ⟨⟨back, right, reads, ⟨_, _, tighter, behind⟩, writes⟩, saturated⟩
  refine ⟨⟨back, (writing.reads.trans reads).quietly (.patchJump _) ranPatch, ?_⟩,
    saturated.quietly (.patchJump _) ranPatch⟩
  rintro front left word before ⟨_, _, tight, chain⟩ kind writesFront
  have isWord := (Token.Kind.trailing?_eq_some kind).2.2 rfl
  exact ⟨.or left right, Grammar.Chain.operand (.or chain tight isWord behind tighter),
    _, _, _, _, _, _, undecided, decided, writesFront, effect_of_ok ranTest,
    effect_of_ok ranJump, effect_of_ok ranFirst, effect_of_ok ranPop, writes, effect_of_ok ranPatch⟩

theorem trailing_read {form : Trailing} (ran : trailing inner form compiler = .ok () compiler') :
    compiler.ReadContinuation form compiler' ∧ compiler'.Extends form.precedence := by
  cases form with
  | call =>
    refine ⟨call_read sound ends ran, fun form _ => ?_⟩
    cases form with
    | binary operator => cases operator <;> decide
    | _ => decide
  | binary operator =>
    refine (binary_read sound ends ran).imp_right fun saturated =>
      saturated.extends_front fun form => ?_
    cases form with
    | binary other => cases operator <;> cases other <;> decide
    | _ => cases operator <;> decide
  | and => exact (and_read sound ends ran).imp_right (·.extends_same)
  | or => exact (or_read sound ends ran).imp_right (·.extends_same)

theorem continueExpression_read (loose : .assignment ≤ level)
    (more : level ≤ compiler.current.kind.precedence) (read : start.ReadOperand reached compiler)
    (goesOn : compiler.Extends reached)
    (ran : continueExpression inner compiler = .ok () compiler') :
    (∃ reached', level ≤ reached' ∧ start.ReadOperand reached' compiler' ∧
      compiler'.Extends reached') ∧ ∃ token tokens, compiler.Reads (token :: tokens) compiler' := by
  simp only [continueExpression, bind_eq_ok, lookahead_eq_ok] at ran
  rcases ran with ⟨_, _, ⟨rfl, rfl⟩, _, advancedCompiler, ranAdvance, ran⟩
  have notNone : compiler.current.kind.precedence ≠ .none := by
    intro none
    rw [none] at more
    exact absurd (Precedence.le_trans loose more) (by decide)
  cases kind : compiler.current.kind.trailing? with
  | none => simp [Token.Kind.precedence, kind] at notNone
  | some form =>
    rw [kind] at ran
    have notEnd : compiler.current.kind ≠ .endOfText := by
      intro atEnd
      simp [atEnd, Token.Kind.trailing?] at kind
    have advanced := advance_advances ranAdvance ends notEnd
    rcases trailing_read sound (advanced.reads.ends ends) ran with
      ⟨⟨tokens, behind, complete⟩, goesOnToo⟩
    rcases read with ⟨front, left, readsFront, derivesFront, writesFront⟩
    rw [← advanced.draft_eq] at writesFront
    rcases complete (.looser (goesOn form kind) derivesFront) kind writesFront with
      ⟨tree, derives, writes⟩
    have reads := advanced.reads.trans behind
    exact ⟨⟨form.precedence, by simpa [Token.Kind.precedence, kind] using more,
      ⟨_, tree, readsFront.trans reads, derives, writes⟩, goesOnToo⟩, _, _, reads⟩

theorem continuations_read (loose : .assignment ≤ level) (tight : level ≤ reached)
    (read : start.ReadOperand reached compiler) (goesOn : compiler.Extends reached)
    (enough : compiler.upcoming.length ≤ bound.length)
    (ran : repeatWithin (continues level) (continueExpression inner) bound compiler =
      .ok () compiler') :
    (∃ reached', level ≤ reached' ∧ start.ReadOperand reached' compiler') ∧
      compiler'.Saturated level := by
  induction bound generalizing compiler reached with
  | nil =>
    simp only [repeatWithin, continues, bind_eq_ok, lookahead_eq_ok, pure_eq_ok] at ran
    rcases ran with ⟨_, _, ⟨_, _, ⟨rfl, rfl⟩, rfl, rfl⟩, _, rfl⟩
    refine ⟨⟨reached, tight, read⟩, ?_⟩
    have atEnd := ends.atEnd_iff.mpr (List.length_eq_zero_iff.mp (Nat.le_zero.mp enough))
    intro more
    rw [atEnd] at more
    exact absurd (Precedence.le_trans loose more) (by decide)
  | cons token bound ih =>
    simp only [repeatWithin, continues, bind_eq_ok, lookahead_eq_ok, pure_eq_ok] at ran
    rcases ran with ⟨_, _, ⟨_, _, ⟨rfl, rfl⟩, rfl, rfl⟩, ran⟩
    split at ran
    · next more =>
      simp only [bind_eq_ok] at ran
      rcases ran with ⟨_, extended, ranRound, ran⟩
      rcases continueExpression_read sound ends loose (by simpa using more) read goesOn
        ranRound with ⟨⟨reached', tight', read', goesOn'⟩, _, _, reads⟩
      have shorter := reads.upcoming_lt (by simp)
      exact ih (reads.ends ends) tight' read' goesOn'
        (by simp only [List.length_cons] at enough; omega) ran
    · next stop =>
      rcases pure_eq_ok.mp ran with ⟨_, rfl⟩
      exact ⟨⟨reached, tight, read⟩, by simpa [Compiler.Saturated] using stop⟩

end

/-- The actions of a level read expressions if those of the level below it do. -/
theorem climb_read (sound : inner.Sound) (loose : .assignment ≤ level) (tight : level ≤ .unary)
    (ends : compiler.Ends) (ran : climb inner level compiler = .ok () compiler') :
    compiler.ReadOperand level compiler' ∧ compiler'.Saturated level := by
  simp only [climb, bind_eq_ok, lookahead_eq_ok] at ran
  rcases ran with ⟨_, _, ⟨rfl, rfl⟩, _, advancedCompiler, ranAdvance, ran⟩
  cases kind : compiler.current.kind.leading? with
  | none =>
    rw [kind] at ran
    exact absurd ran fail_ne_ok
  | some form =>
    rw [kind] at ran
    have notEnd : compiler.current.kind ≠ .endOfText := by
      intro atEnd
      simp [atEnd, Token.Kind.leading?] at kind
    have advanced := advance_advances ranAdvance ends notEnd
    simp only [bind_eq_ok, lookahead_eq_ok, repeatWhile, get_eq_ok] at ran
    rcases ran with ⟨_, first, ranFirst, _, last, ⟨_, _, ⟨rfl, rfl⟩, ranRest⟩, _, _, ⟨rfl, rfl⟩,
      ran⟩
    rw [← advanced.previous_eq] at kind
    rcases leading_read sound tight (advanced.reads.ends ends) kind ranFirst with
      ⟨reached, reachedTight, rest, goesOn⟩
    have read := Compiler.ReadOperand.of_rest advanced rest
    rcases continuations_read sound (read.ends ends) loose reachedTight read goesOn
      (Nat.le_refl _) ranRest with ⟨⟨reached', tight', read'⟩, saturated⟩
    split at ran
    · simp only [bind_eq_ok] at ran
      rcases ran with ⟨_, _, _, failed⟩
      exact absurd failed fail_ne_ok
    · rcases pure_eq_ok.mp ran with ⟨_, rfl⟩
      exact ⟨read'.looser tight', saturated⟩

end Compile

end StackScript
