import StackScript.Proofs.Parsing.Program
import StackScript.Proofs.Reading.Program
import StackScript.Proofs.Ruling.Function

/-!
# Which texts compile

A text compiles exactly if its tokens are a program of the grammar that is nested shallowly enough,
breaks no rule, and has room for its constants in each of its functions.
-/

namespace StackScript

open Compile

/-! ## Tokens of the grammar -/

/-- Whether a token of this kind is no error and introduces no loop. -/
def Token.Kind.isPlain : Token.Kind → Bool
  | .error _ | .keyword .whileKw | .keyword .forKw => false
  | _ => true

theorem Token.Kind.isPlain_of_leading {kind : Token.Kind} {form : Leading}
    (starts : kind.leading? = some form) : kind.isPlain = true := by
  unfold isPlain
  split <;> first | rfl | cases starts

theorem Token.Kind.isPlain_of_trailing {kind : Token.Kind} {form : Trailing}
    (goesOn : kind.trailing? = some form) : kind.isPlain = true := by
  unfold isPlain
  split <;> first | rfl | cases goesOn

/-- Whether a token has no error in it. -/
def Token.Plain (token : Token) : Prop :=
  token.kind.isPlain = true

namespace Grammar

variable {tokens : List Token} {body : Statement} {depth : Nat}

/-- Whether every token has a property. -/
def Each (good : Token → Prop) (tokens : List Token) : Prop :=
  ∀ token ∈ tokens, good token

section Each

variable {good : Token → Prop}

@[simp] theorem each_nil : Each good [] := by
  simp [Each]

@[simp] theorem each_cons {token : Token} :
    Each good (token :: tokens) ↔ good token ∧ Each good tokens :=
  List.forall_mem_cons

@[simp] theorem each_append {front back : List Token} :
    Each good (front ++ back) ↔ Each good front ∧ Each good back :=
  List.forall_mem_append

end Each

/-- Whether all tokens can be read. -/
abbrev Readable : List Token → Prop :=
  Each Token.Readable

/-- Whether all tokens are plain. -/
abbrev Plain : List Token → Prop :=
  Each Token.Plain

theorem Plain.readable (plain : Plain tokens) : Readable tokens := by
  intro token present reason isError
  have noError := plain token present
  rw [Token.Plain, isError] at noError
  cases noError

theorem Separated.plain_parameters {names : List Token} {parameters : List String}
    (separated : Separated Parameter names parameters) : Plain names := by
  induction separated with
  | none => exact each_nil
  | last only =>
    rcases only with ⟨token, rfl, isName, _⟩
    simp [Token.Plain, Token.Kind.isPlain, isName]
  | more first separator _ ih =>
    rcases first with ⟨token, rfl, isName, _⟩
    simp [Token.Plain, Token.Kind.isPlain, isName, separator, ih]

theorem Chain.isPlain {level : Precedence} {expression : Expression}
    (chain : Chain tokens expression level depth) : Plain tokens := by
  refine @Chain.rec (fun tokens _ _ _ _ => Plain tokens) (fun tokens _ _ _ => Plain tokens)
    ?number ?string ?literal ?reference ?grouping ?unary ?assign ?call ?binary ?and ?or
    ?none ?last ?more tokens expression level depth chain
  case literal =>
    intro _ _ kind
    simp [Token.Plain, Token.Kind.isPlain_of_leading kind]
  case unary =>
    intro _ _ _ _ _ _ kind _ _ ih
    simp [Token.Plain, Token.Kind.isPlain_of_leading kind, ih]
  case binary =>
    intro _ _ _ _ _ _ _ _ _ _ _ _ kind _ _ ihLeft ihRight
    simp [Token.Plain, Token.Kind.isPlain_of_trailing kind, ihLeft, ihRight]
  all_goals
    intros
    simp_all [Token.Plain, Token.Kind.isPlain]

theorem Whole.isPlain {expression : Expression} (whole : Whole tokens expression depth) :
    Plain tokens := by
  rcases whole with ⟨_, _, chain, _⟩
  exact chain.isPlain

theorem Variable.isPlain {name : String} {initial : Option Expression}
    (declares : Variable tokens name initial depth) : Plain tokens := by
  cases declares with
  | plain named ends => simp [Token.Plain, Token.Kind.isPlain, named, ends]
  | initialized named sign value ends =>
    simp [Token.Plain, Token.Kind.isPlain, named, sign, value.isPlain, ends]

theorem Clause.isPlain {ending : Token.Kind} {given : Option Expression}
    (clause : Clause ending tokens given depth) (plain : ending.isPlain = true) : Plain tokens := by
  cases clause with
  | missing ends => simp [Token.Plain, ends, plain]
  | present value ends => simp [Token.Plain, value.isPlain, ends, plain]

theorem Initial.isPlain {initial : Statement} (starts : Initial tokens initial depth) :
    Plain tokens := by
  cases starts with
  | missing ends => simp [Token.Plain, Token.Kind.isPlain, ends]
  | varDeclaration introduces declares =>
    simp [Token.Plain, Token.Kind.isPlain, introduces, declares.isPlain]
  | expression value ends => simp [Token.Plain, Token.Kind.isPlain, value.isPlain, ends]

attribute [local simp] Token.Readable

theorem Phrase.readable {category : Category} {statement : Statement}
    (phrase : Phrase category tokens statement depth) : Readable tokens := by
  induction phrase with
  | expression given ends => simp [given.isPlain.readable, ends]
  | print introduces given ends => simp [introduces, given.isPlain.readable, ends]
  | whileLoop introduces opens tested closes _ ih =>
    simp [introduces, opens, tested.isPlain.readable, closes, ih]
  | forLoop introduces opens starts tested advances _ ih =>
    simp [introduces, opens, starts.isPlain.readable, (tested.isPlain rfl).readable,
      (advances.isPlain rfl).readable, ih]
  | returnValue introduces given =>
    simp [introduces, (given.isPlain rfl).readable]
  | alone opens tested closes _ ih =>
    simp [opens, tested.isPlain.readable, closes, ih]
  | otherwise opens tested closes _ _ introduces _ ihMet ihUnmet
  | alternative opens tested closes _ _ introduces _ ihMet ihUnmet =>
    simp [opens, tested.isPlain.readable, closes, introduces, ihMet, ihUnmet]
  | varDeclaration introduces declares =>
    simp [introduces, declares.isPlain.readable]
  | funDeclaration introduces named opens takes closes begins _ ends ih =>
    simp [introduces, named, opens, takes.plain_parameters.readable, closes, begins,
      ends, ih]
  | _ => simp_all

theorem Program.readable (program : Program tokens body) : Readable tokens := by
  rcases program with ⟨depth, front, ending, rfl, isEnd, phrase⟩
  simp [phrase.readable, isEnd]

theorem Program.placed (program : Program tokens body) : body.Placed := by
  rcases program with ⟨_, _, _, _, _, phrase⟩
  exact phrase.placed.1

theorem Nested.Program.compiled {program : Statement}
    (nested : Nested.Program tokens program depth) (placed : program.Placed) :
    ((∃ script, compileTokens tokens = .ok script) ↔
      depth ≤ maxNesting ∧ program.Lawful .script ∧
        (program.use .script).count ≤ Chunk.maxConstants ∧ program.FunctionsFit) ∧
    ∀ error, compileTokens tokens = .error error → depth ≤ maxNesting →
      program.Lawful .script → error.kind = .tooManyConstants := by
  have agrees := nested.agrees
  have settles := program.generateScript_settles placed []
  rw [compileTokens]
  generalize Compile.program (.ofTokens tokens) = result at agrees
  generalize program.generateScript (.ofTokens []) = written at agrees settles
  cases result with
  | ok script after =>
    cases written with
    | error error _ => exact agrees.elim
    | ok other writer =>
      rcases settles with ⟨lawful, ⟨room, fit⟩, _⟩
      refine ⟨iff_of_true ⟨script, rfl⟩ ⟨agrees.1, lawful, room, fit⟩, ?_⟩
      intro error failed
      cases failed
  | error error after =>
    cases written with
    | ok other writer =>
      have deep : ¬depth ≤ maxNesting := agrees
      refine ⟨iff_of_false ?_ fun all => deep all.1, ?_⟩
      · rintro ⟨script, ⟨⟩⟩
      · intro _ _ shallow
        exact absurd shallow deep
    | error other writer =>
      rcases settles with ⟨broken, wants⟩
      refine ⟨iff_of_false ?_ ?_, ?_⟩
      · rintro ⟨script, ⟨⟩⟩
      · rintro ⟨_, lawful, room⟩
        exact broken ⟨lawful, room⟩
      · rintro _ ⟨⟩ shallow lawful
        exact (agrees shallow).trans (wants lawful)

end Grammar

/--
A text compiles exactly if it has no token that is an error, is a program of the grammar that is not
nested too deeply, breaks no rule, and has room for the constants of each of its functions.
-/
theorem compile_exact (text : String) :
    (∃ script, compile text = .ok script) ↔
      (∀ token ∈ tokens text, token.Readable) ∧
      ∃ program, Grammar.Program (tokens text) program ∧
        (∀ depth, Grammar.Nested.Program (tokens text) program depth → depth ≤ maxNesting) ∧
        program.Lawful .script ∧
        (program.use .script).count ≤ Chunk.maxConstants ∧ program.FunctionsFit := by
  constructor
  · intro accepted
    rcases accepted with ⟨script, compiled⟩
    rcases compile_read compiled with ⟨program, ⟨depth, nested⟩, _⟩
    have derives : Grammar.Program (tokens text) program := ⟨depth, nested⟩
    have placed := derives.placed
    rcases (nested.compiled placed).1.mp ⟨script, compiled⟩ with ⟨_, lawful, room, fit⟩
    refine ⟨derives.readable, program, derives, ?_, lawful, room, fit⟩
    intro other nestedToo
    exact ((nestedToo.compiled placed).1.mp ⟨script, compiled⟩).1
  · rintro ⟨_, program, derives, shallow, lawful, room, fit⟩
    have placed := derives.placed
    rcases derives with ⟨depth, nested⟩
    exact (nested.compiled placed).1.mpr ⟨shallow depth nested, lawful, room, fit⟩

end StackScript
