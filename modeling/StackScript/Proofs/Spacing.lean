import StackScript.Proofs.Comparison
import StackScript.Proofs.Scanning

/-!
# Code does not depend on where tokens stand

Two texts with the same tokens, at whatever places, are compiled side by side. The compilers accept
both with scripts that differ in their lines only, or refuse both for the same reason and at the
same token.
-/

namespace StackScript

/-- Whether two compilers differ in the places of tokens and in lines only. -/
structure Compiler.Beside (left right : Compiler) : Prop where
  upcoming : List.Forall₂ Token.Same left.upcoming right.upcoming
  current : left.current.Same right.current
  previous : left.previous.Same right.previous
  nesting_eq : left.nesting = right.nesting
  draft : left.draft.Alike right.draft
  enclosing : List.Forall₂ Draft.Alike left.enclosing right.enclosing

/-- Texts with the same tokens. -/
def Comparison.spacing : Comparison where
  view := .alike
  related := Token.Same
  kind_eq same := same.kind_eq.symm
  line _ := trivial
  name same _ := same.lexeme_eq.symm
  literal same _ := same.lexeme_eq.symm
  finished alike _ := alike.function
  holds _ _ := True
  moves _ _ := trivial
  stays _ := trivial
  rest := []
  others := []

theorem Compiler.Beside.alongside {left right : Compiler} (beside : left.Beside right) :
    left.Alongside .spacing right where
  ahead := ⟨_, _, (List.append_nil _).symm, (List.append_nil _).symm, beside.upcoming⟩
  current := beside.current
  previous := beside.previous
  nesting_eq := beside.nesting_eq
  like := ⟨beside.draft, beside.enclosing, trivial⟩
  holds := trivial
  bounds := .inl beside.upcoming.length_eq

namespace Compile

/-- Two runs of the compiler end in the same way. -/
inductive Matched {α β : Type} (same : α → β → Prop) :
    EStateM.Result CompileError Compiler α → EStateM.Result CompileError Compiler β → Prop where
  | ok {value : α} {other : β} {after after' : Compiler} (related : same value other) :
      Matched same (.ok value after) (.ok other after')
  | error {error error' : CompileError} {after after' : Compiler}
      (kind_eq : error.kind = error'.kind) (lexeme_eq : error.lexeme = error'.lexeme) :
      Matched same (.error error after) (.error error' after')

theorem program_matched {left right : Compiler} (beside : left.Beside right) :
    Matched Function.Alike (program left) (program right) := by
  have compared := (wholeText_built .nothing).blind.compared beside.alongside
    (by simp [Known.nothing])
  rw [program_eq, bind_apply, bind_apply]
  generalize wholeText left = result at compared
  generalize wholeText right = result' at compared
  cases compared with
  | ok _ alongside =>
    have ended := finish_paired alongside.like
    dsimp only
    generalize finish _ = result at ended
    generalize finish _ = result' at ended
    cases ended with
    | ok alike => exact .ok alike
    | error => exact .error (CompileError.Kind.renamed_id _).symm alongside.previous.lexeme_eq
  | error same => exact .error (CompileError.Kind.renamed_id _).symm same.lexeme_eq
  | beyond further => exact absurd further (Nat.not_lt_zero _)

end Compile

/--
Texts with the same tokens, at whatever places and with whatever blanks and comments between them,
are accepted both, as scripts that differ in their lines only, or refused both, for the same reason
and at the same characters.
-/
theorem compile_spacing {text other : String}
    (same : (tokens text).map (fun token => (token.kind, token.lexeme)) =
      (tokens other).map fun token => (token.kind, token.lexeme)) :
    (∃ script script', compile text = .ok script ∧ compile other = .ok script' ∧
      script.Alike script') ∨
    ∃ error error', compile text = .error error ∧ compile other = .error error' ∧
      error.kind = error'.kind ∧ error.lexeme = error'.lexeme := by
  have ahead : List.Forall₂ Token.Same (tokens text) (tokens other) := by
    rw [← List.forall₂_eq_eq_eq, List.forall₂_map_left_iff, List.forall₂_map_right_iff] at same
    apply same.imp
    intro token twin contentEq
    exact ⟨congrArg Prod.fst contentEq, congrArg Prod.snd contentEq⟩
  have beside : (Compiler.ofText text).Beside (.ofText other) :=
    ⟨ahead, ⟨rfl, rfl⟩, ⟨rfl, rfl⟩, rfl, .refl _, .nil⟩
  have matched := Compile.program_matched beside
  rw [Compiler.ofText, Compiler.ofText] at matched
  rw [compile, compile, compileTokens, compileTokens]
  generalize Compile.program (.ofTokens (tokens text)) = result at matched
  generalize Compile.program (.ofTokens (tokens other)) = result' at matched
  cases matched with
  | ok alike => exact .inl ⟨_, _, rfl, rfl, alike⟩
  | error kindEq lexemeEq => exact .inr ⟨_, _, rfl, rfl, kindEq, lexemeEq⟩

/-- A program with no more blanks than it needs, one of which is a line end in a string. -/
def denseText : String :=
  "fun f(a){return a/2;}print f(2)!=\"x\ny\";"

/-- The same program with blanks, line ends and comments wherever they may stand. -/
def spreadText : String :=
  "// spread\nfun f ( a )\n\n\t{ return a / 2 ; } // a comment\r\nprint f (\n2) != \"x\ny\" ;//end"

/-- Two layouts of one program, the second with a comment up to the end of the text. -/
theorem compile_spacing_spreadText :
    (tokens denseText).map (fun token => (token.kind, token.lexeme)) =
      (tokens spreadText).map (fun token => (token.kind, token.lexeme)) ∧
    ((∃ script script', compile denseText = .ok script ∧ compile spreadText = .ok script' ∧
      script.Alike script') ∨
    ∃ error error', compile denseText = .error error ∧ compile spreadText = .error error' ∧
      error.kind = error'.kind ∧ error.lexeme = error'.lexeme) := by
  have same : (tokens denseText).map (fun token => (token.kind, token.lexeme)) =
      (tokens spreadText).map (fun token => (token.kind, token.lexeme)) := by
    decide +kernel
  exact ⟨same, compile_spacing same⟩

end StackScript
