import StackScript.Proofs.Assembly
import StackScript.Proofs.Observing.Agreement
import StackScript.Proofs.Parsing.Expression
import StackScript.Proofs.Reading.Program
import StackScript.Proofs.Unambiguity

/-!
# What is read as an expression

Of the tokens ahead, the compiler reads exactly the expression that nothing continues, if it breaks
no rule and stays within the limits, and it adds exactly the code of the one tree of that
expression.
-/

namespace StackScript

open Compile Grammar

/-- Whether the tokens ahead start with an expression that can be compiled where it stands. -/
structure Compiler.Awaits (compiler : Compiler) (tokens : List Token) (expression : Expression) :
    Prop where
  derives : Operand .assignment tokens expression
  /-- The token behind it does not continue it, nor assign to it, and is a token at all. -/
  ends : ∃ next rest, compiler.stream = tokens ++ next :: rest ∧ next.kind.trailing? = none ∧
    next.kind ≠ .equal ∧ next.Readable
  initialized : ∀ name ∈ expression.identifiers, Local.Initialized compiler.draft.locals name
  nests : ∃ level depth, Grammar.Chain tokens expression level depth ∧
    compiler.nesting + (depth + 1) ≤ maxNesting
  arguments_le : ∀ count ∈ expression.argumentCounts, count ≤ maxArguments
  distances_le : ∀ distance ∈ expression.distances, distance ≤ maxDistance
  constants_le : (expression.fill compiler.draft.locals compiler.draft.pooled).size ≤
    Chunk.maxConstants

/-- Whether the compiler has read tokens and written their expression, and has done no more. -/
structure Compiler.Writes (compiler : Compiler) (tokens : List Token) (expression : Expression)
    (after : Compiler) : Prop where
  passes : compiler.Passes tokens after
  frame : compiler.draft.SameFrame after.draft
  code_eq : after.draft.chunk.code.toList = compiler.draft.chunk.code.toList ++
    assemble (expression.code compiler.draft.locals compiler.draft.pooled)
  constants_eq : List.Forall₂ Constant.Alike after.draft.chunk.constants.toList
    (expression.fill compiler.draft.locals compiler.draft.pooled).constants.toList
  names_eq : after.draft.names = (expression.fill compiler.draft.locals compiler.draft.pooled).names
  enclosing_eq : after.enclosing = compiler.enclosing

namespace Compile

variable {compiler after : Compiler} {levels : Nat}

theorem expression_noTarget (ran : (Parser.level levels).expression compiler = .ok () after) :
    after.current.kind ≠ .equal := by
  cases levels with
  | zero => exact absurd ran failAhead_ne_ok
  | succ below =>
    rcases nested_eq_ok.mp ran with ⟨_, last, ranInside, rfl⟩
    simp only [climb, bind_eq_ok, lookahead_eq_ok] at ranInside
    rcases ranInside with ⟨_, _, ⟨rfl, rfl⟩, _, advanced, _, ranInside⟩
    cases starts : compiler.current.kind.leading? with
    | none =>
      simp only [starts] at ranInside
      exact absurd ranInside fail_ne_ok
    | some form =>
      simp only [starts, bind_eq_ok, lookahead_eq_ok] at ranInside
      rcases ranInside with ⟨_, _, _, _, _, _, _, _, ⟨rfl, rfl⟩, ranInside⟩
      split at ranInside
      · simp only [bind_eq_ok] at ranInside
        rcases ranInside with ⟨_, _, _, failed⟩
        exact absurd failed fail_ne_ok
      · next noError =>
        rw [← (pure_eq_ok.mp ranInside).2]
        have loose : Precedence.assignment ≤ .assignment := Precedence.le_refl _
        simpa [loose] using noError

theorem expression_settles {tokens : List Token} {expression : Expression} {level : Precedence}
    {depth : Nat} {next : Token} {rest : List Token}
    (ends : compiler.Ends) (deep : maxNesting < levels + compiler.nesting)
    (room : compiler.draft.pooled.size ≤ Chunk.maxConstants)
    (chain : Grammar.Chain tokens expression level depth)
    (streamEq : compiler.stream = tokens ++ next :: rest) (stops : next.kind.trailing? = none)
    (noTarget : next.kind ≠ .equal) :
    ((∃ after, (Parser.level levels).expression compiler = .ok () after) ↔
      (compiler.nesting + (depth + 1) ≤ maxNesting ∧ next.Readable) ∧
      expression.Legal compiler.draft.locals ∧
      (expression.fill compiler.draft.locals compiler.draft.pooled).size ≤ Chunk.maxConstants) ∧
    ∀ after, (Parser.level levels).expression compiler = .ok () after →
      compiler.Writes tokens expression after := by
  have follows := chain.expression_follows deep streamEq stops noTarget (.refl compiler)
  have settles := expression.assembled compiler room
  cases ran : (Parser.level levels).expression compiler with
  | ok value after =>
    cases wrote : expression.generate compiler with
    | ok other writer =>
      rw [ran, wrote] at follows
      rw [wrote] at settles
      rcases follows with ⟨fit, _, passes, alike⟩
      rcases settles with ⟨legal, enough, appends⟩
      refine ⟨⟨fun _ => ⟨fit, legal, enough⟩, fun _ => ⟨after, rfl⟩⟩, ?_⟩
      rintro _ ⟨_, rfl⟩
      rcases expression_read (Parser.level_sound levels) ends ran with ⟨⟨_, _, reads, _, _⟩, _⟩
      have framed := alike.draft
      refine ⟨passes, ⟨?_, ?_, ?_⟩, ?_, ?_, ?_, reads.enclosing_eq⟩
      · rw [← appends.frame.head_eq, Draft.head, framed.name_eq, framed.arity_eq, framed.kind_eq]
        rfl
      · rw [framed.locals_eq, appends.frame.locals_eq]
      · rw [framed.scopes_eq, appends.frame.scopes_eq]
      · rw [framed.code_eq, appends.code_eq]
      · rw [← appends.pool_eq]
        exact framed.held
      · rw [framed.names_eq, ← appends.pool_eq]
        rfl
    | error error writer =>
      rw [ran, wrote] at follows
      exact follows.elim
  | error error after =>
    refine ⟨⟨fun ⟨_, isOk⟩ => (by cases isOk), ?_⟩, fun _ isOk => by cases isOk⟩
    rintro ⟨fit, legal, enough⟩
    cases wrote : expression.generate compiler with
    | ok other writer =>
      rw [ran, wrote] at follows
      exact absurd fit follows
    | error error' writer =>
      rw [wrote] at settles
      exact absurd ⟨legal, enough⟩ settles.1

end Compile

theorem Compiler.Saturated.trailing_none {compiler : Compiler}
    (saturated : compiler.Saturated .assignment) : compiler.current.kind.trailing? = none := by
  rw [Compiler.Saturated, Token.Kind.precedence] at saturated
  cases trails : compiler.current.kind.trailing? with
  | none => rfl
  | some form =>
    rw [trails] at saturated
    cases form with
    | binary operator => cases operator <;> exact absurd (by decide) saturated
    | _ => exact absurd (by decide) saturated

/--
In every text, every expression is read with the end of the text ahead, with levels of the grammar
left for it, and with no more constants so far than there may be.
-/
theorem performs_of_returned {text : String} {rounds depth : Nat} {entry exit : Compiler}
    {succeeded : Bool} (enough : (tokens text).length < rounds) (deep : callDepth ≤ depth)
    (returned : .returned .expression entry succeeded exit ∈
      (observe rounds depth text).observations) :
    ∃ levels, entry.Ends ∧ maxNesting < levels + entry.nesting ∧
      entry.draft.pooled.size ≤ Chunk.maxConstants ∧
      (succeeded = true ↔ (Parser.level levels).expression entry = .ok () exit) := by
  rcases (observe_shows enough deep).proper.exists_proper returned with
    ⟨_, _, _, _, levels, ends, above, room, succeededEq, exitEq⟩
  refine ⟨levels, ends, above, room, ?_⟩
  rw [succeededEq, exitEq, Procedure.action]
  cases (Parser.level levels).expression entry <;> simp [Observed.succeeded, Observed.reached]

/--
The compiler reads an expression off the tokens ahead exactly if they start with one that nothing
continues, that breaks no rule and that stays within the limits. It reads just these tokens and
adds just the code of their tree, and no other expression can be read off the same tokens.
-/
theorem expression_exact {compiler : Compiler} {levels : Nat} (ends : compiler.Ends)
    (deep : maxNesting < levels + compiler.nesting)
    (room : compiler.draft.pooled.size ≤ Chunk.maxConstants) :
    ((∃ after, (Parser.level levels).expression compiler = .ok () after) ↔
      ∃ tokens expression, compiler.Awaits tokens expression) ∧
    ∀ tokens expression, compiler.Awaits tokens expression →
      (∃ after, (Parser.level levels).expression compiler = .ok () after ∧
        compiler.Writes tokens expression after) ∧
      ∀ others other next rest, Operand .assignment others other →
        compiler.stream = others ++ next :: rest → next.kind.trailing? = none →
        next.kind ≠ .equal → others = tokens ∧ other = expression := by
  have reads : ∀ tokens expression, compiler.Awaits tokens expression →
      ∃ after, (Parser.level levels).expression compiler = .ok () after ∧
        compiler.Writes tokens expression after := by
    intro tokens expression awaits
    rcases awaits.ends with ⟨next, rest, streamEq, stops, noTarget, readable⟩
    rcases awaits.nests with ⟨level, depth, chain, shallow⟩
    have settles := expression_settles ends deep room chain streamEq stops noTarget
    rcases settles.1.mpr ⟨⟨shallow, readable⟩, ⟨awaits.initialized, awaits.arguments_le,
      awaits.distances_le⟩, awaits.constants_le⟩ with ⟨after, ran⟩
    exact ⟨after, ran, settles.2 after ran⟩
  refine ⟨⟨?_, ?_⟩, ?_⟩
  · rintro ⟨after, ran⟩
    rcases expression_read (Parser.level_sound levels) ends ran with
      ⟨⟨tokens, expression, read, derives, _⟩, saturated⟩
    have ⟨level, depth, _, chain⟩ := derives
    have stops : after.current.kind.trailing? = none := saturated.trailing_none
    have noTarget := expression_noTarget ran
    have settles := expression_settles ends deep room chain read.stream_eq stops noTarget
    rcases settles.1.mp ⟨after, ran⟩ with ⟨⟨shallow, readable⟩, ⟨initialized, small⟩, enough⟩
    exact ⟨tokens, expression, derives, ⟨_, _, read.stream_eq, stops, noTarget, readable⟩,
      initialized, ⟨level, depth, chain, shallow⟩, small.1, small.2, enough⟩
  · rintro ⟨tokens, expression, awaits⟩
    rcases reads tokens expression awaits with ⟨after, ran, _⟩
    exact ⟨after, ran⟩
  · intro tokens expression awaits
    refine ⟨reads tokens expression awaits, ?_⟩
    intro others other next rest derives streamEq stops noTarget
    rcases awaits.ends with ⟨ahead, behind, streamEq', stops', noTarget', _⟩
    exact derives.unique awaits.derives (streamEq.symm.trans streamEq') stops noTarget stops'
      noTarget'

/-- The declaration of a variable whose value uses every level of the grammar. -/
def mixedText : String :=
  "var x = y = a and -f(1, !b)(nil) != \"s\" or (c = 3) <= 2 * 4 - a;"

/-- The compiler at the value of the variable is at an expression that it reads and writes. -/
theorem expression_exact_mixedText :
    ∃ compiler tokens expression after,
      (do advance; advance; discard (declare .variableName); accept .equal : Compile Bool)
        (.ofText mixedText) = .ok true compiler ∧
      compiler.Awaits tokens expression ∧ Parser.top.expression compiler = .ok () after ∧
      compiler.Writes tokens expression after := by
  have evaluated : (match (do
        advance; advance; discard (declare .variableName); accept .equal : Compile Bool)
        (.ofText mixedText) with
      | .ok true compiler =>
        (compiler.stream.getLastD .unread).kind = .endOfText &&
        compiler.stream.dropLast.all (·.kind ≠ .endOfText) &&
        compiler.draft.pooled.size ≤ Chunk.maxConstants &&
        match Parser.top.expression compiler with
        | .ok _ _ => true
        | .error _ _ => false
      | _ => false) = true := by
    decide +kernel
  split at evaluated
  · next compiler reached =>
    simp only [Bool.and_eq_true, List.all_eq_true, decide_eq_true_eq] at evaluated
    rcases evaluated with ⟨⟨⟨last, others⟩, room⟩, accepted⟩
    have ends : compiler.Ends := ⟨_, _, (List.dropLast_append_getLast (List.cons_ne_nil _ _)).symm,
      last, others⟩
    split at accepted
    · next after ran =>
      have settled := expression_exact ends maxNesting_lt room
      rcases settled.1.mp ⟨after, ran⟩ with ⟨tokens, expression, awaits⟩
      rcases (settled.2 tokens expression awaits).1 with ⟨after, ran, writes⟩
      exact ⟨compiler, tokens, expression, after, reached, awaits, ran, writes⟩
    · cases accepted
  · cases evaluated

end StackScript
