import Mathlib.Logic.Equiv.Basic
import StackScript.Proofs.Comparison
import StackScript.Proofs.Renaming

/-!
# Compiling with other names

A program and the same program with new names are compiled side by side. The two compilers write the
same code and give names their places at the same time, so they accept both programs or refuse both
at the same token.
-/

namespace StackScript

open Compile

namespace Renaming

/-- Functions with new names. -/
def view (rename : Renaming) : Resemblance where
  rename := rename.apply
  injective := rename.apply_injective
  lines := Eq
  function := Function.Renamed rename
  draft := Draft.Twin rename
  script := .script
  begun := .named
  parallel twin := ⟨twin.arity_eq, twin.kind_eq, twin.locals_eq, twin.scopes_eq, twin.names_eq,
    twin.chunkSize_eq, twin.size_eq⟩
  writeOpcode := by
    rintro _ _ opcode line _ twin rfl
    exact twin.writeOpcode opcode line
  writeByte byte twin := twin.writeByte byte
  patchWord offset word twin := twin.patchWord offset word
  pool twin := twin.pool
  intern twin := twin.intern
  withArity _ twin := { twin with arity_eq := rfl }
  withScopes _ twin := { twin with scopes_eq := rfl }
  withLocals _ twin := { twin with locals_eq := rfl }

/-- A program beside the renamed one. -/
def comparison (rename : Renaming) (tokens : List Token) : Comparison where
  view := rename.view
  related token other := other = rename.token token ∧ token ∈ .unread :: tokens
  kind_eq := by
    rintro token _ ⟨rfl, _⟩
    exact rename.kind_token token
  line := by
    rintro token _ ⟨rfl, _⟩
    exact (rename.line_token token).symm
  name := by
    rintro token _ ⟨rfl, _⟩
    exact rename.lexeme_of_identifier
  literal := by
    rintro token _ ⟨rfl, _⟩ other
    rw [rename.token_of_other other]
  finished twin := twin.function
  holds _ _ := True
  moves _ _ := trivial
  stays _ := trivial
  rest := []
  others := []

end Renaming

/-- Whether two compilers read the same program, the second one with new names. -/
abbrev Compiler.Twin (rename : Renaming) (tokens : List Token) (left right : Compiler) : Prop :=
  left.Alongside (rename.comparison tokens) right

namespace Renaming

variable {α : Type} {rename : Renaming} {tokens : List Token} {left right : Compiler}

inductive Matches (rename : Renaming) (tokens : List Token) {α : Type} :
    EStateM.Result CompileError Compiler α → EStateM.Result CompileError Compiler α → Prop where
  | ok {value : α} {after after' : Compiler} (like : after.Like rename.view after') :
      Matches rename tokens (.ok value after) (.ok value after')
  | error {token : Token} {kind : CompileError.Kind} {after after' : Compiler}
      (within : token ∈ .unread :: tokens) :
      Matches rename tokens (.error (.atToken token kind) after)
        (.error (.atToken (rename.token token) (kind.renamed rename.apply)) after')

theorem matches_of_built {caller : Procedure} {levels : Nat} {known : Known} {mode : Mode}
    {action : Compile α} (built : Built caller levels known mode action)
    (last : ∀ kind ∈ known.last, left.previous.kind = kind)
    (twin : left.Twin rename tokens right) :
    Matches rename tokens (action left) (action right) := by
  have compared := built.blind.compared twin last
  generalize action left = result at compared
  generalize action right = result' at compared
  cases compared with
  | ok same alongside =>
    cases same
    exact .ok alongside.like
  | error related =>
    rcases related with ⟨rfl, within⟩
    exact .error within
  | beyond further => exact absurd further (Nat.not_lt_zero _)

theorem exists_finish {operations : List Operation} (like : left.Like rename.view right)
    (kept : left.draft.Kept operations []) :
    ∃ script script' after after', finish left = .ok script after ∧
      finish right = .ok script' after' ∧ script.Renamed rename script' := by
  have returns : KeepsAll [] emitReturn := .emitReturn
  rcases returns left operations [] kept (by simp) () _ rfl with ⟨_, keptReturned, _⟩
  have paired := Uniform.emitReturn left right like
  rw [show emitReturn left = .ok () _ from rfl,
    show emitReturn right = .ok () _ from rfl] at paired
  cases paired with
  | ok _ _ _ likeReturned =>
    exact ⟨_, _, _, _, rfl, rfl, Draft.Twin.function likeReturned.draft keptReturned⟩

/-- Whether two results of compiling are the same, but for names. -/
inductive SameOutcome (rename : Renaming) (tokens : List Token) :
    Except CompileError Function → Except CompileError Function → Prop where
  | accepted {script script' : Function} (renamed : script.Renamed rename script') :
      SameOutcome rename tokens (.ok script) (.ok script')
  | refused {token : Token} {kind : CompileError.Kind} (within : token ∈ .unread :: tokens) :
      SameOutcome rename tokens (.error (.atToken token kind))
        (.error (.atToken (rename.token token) (kind.renamed rename.apply)))

end Renaming

namespace Compiler.Twin

theorem ofTokens (rename : Renaming) (tokens : List Token) :
    (Compiler.ofTokens tokens).Twin rename tokens (.ofTokens (tokens.map rename.token)) where
  ahead := by
    refine ⟨tokens, tokens.map rename.token, (List.append_nil _).symm, (List.append_nil _).symm, ?_⟩
    rw [List.forall₂_map_right_iff, List.forall₂_same]
    exact fun token present => ⟨rfl, List.mem_cons_of_mem _ present⟩
  current := ⟨rfl, List.mem_cons_self⟩
  previous := ⟨rfl, List.mem_cons_self⟩
  nesting_eq := rfl
  like := ⟨.script, .nil, rfl⟩
  holds := trivial
  bounds := .inl (List.length_map _).symm

end Compiler.Twin

/--
Names matter only by being equal or not. A program in which every name is replaced by another one,
different names by different ones, is accepted exactly if the original is, with the same code: the
constants differ in the names of global variables and of functions only. Otherwise it is refused for
the same reason and at the same token.
-/
theorem compileTokens_renamed (rename : Renaming) (tokens : List Token) :
    rename.SameOutcome tokens (compileTokens tokens) (compileTokens (tokens.map rename.token)) := by
  have built := wholeText_built .nothing
  have matched := Renaming.matches_of_built built (by simp [Known.nothing])
    (Compiler.Twin.ofTokens rename tokens)
  have keeps := built.keeps (.ofTokens tokens) [] [] Draft.kept_script (by simp [Known.nothing])
  rw [compileTokens, compileTokens, program_eq, bind_apply, bind_apply]
  generalize wholeText (.ofTokens tokens) = result at matched keeps
  generalize wholeText (.ofTokens (tokens.map rename.token)) = result' at matched
  cases matched with
  | error within => exact .refused within
  | ok twin =>
    rcases keeps _ _ rfl with ⟨operations, kept, _⟩
    rcases Renaming.exists_finish twin kept with ⟨script, script', _, _, ended, ended', renamed⟩
    simp only [ended, ended']
    exact .accepted renamed

/-- The renaming that exchanges two names. -/
def Renaming.exchange (first second : Name) : Renaming :=
  ⟨Equiv.swap first second, (Equiv.swap first second).injective⟩

/-- A string that is spelled like a variable, and a function with locals of both names. -/
def homonymText : String :=
  "var a = \"a\"; fun f(b) \x7b var a = b; return a; \x7d print f(a);"

def exchangedText : String :=
  "var b = \"a\"; fun f(a) \x7b var b = a; return b; \x7d print f(b);"

/-- The variable gets the other name, the string that is spelled like it does not. -/
theorem compileTokens_renamed_homonymText :
    ∃ rename : Renaming, (tokens homonymText).map rename.token = tokens exchangedText ∧
      ∃ script script', compile homonymText = .ok script ∧ compile exchangedText = .ok script' ∧
        script.chunk.constants.toList.map Datum.string? = [some "a", some "a", some "f", none] ∧
        script'.chunk.constants.toList.map Datum.string? = [some "b", some "a", some "f", none] ∧
        script.Renamed rename script' := by
  have exchanged : (tokens homonymText).map
      (Renaming.exchange ⟨"a", rfl⟩ ⟨"b", rfl⟩).token = tokens exchangedText := by
    decide +kernel
  have outcome := compileTokens_renamed (Renaming.exchange ⟨"a", rfl⟩ ⟨"b", rfl⟩)
    (tokens homonymText)
  rw [exchanged] at outcome
  have pool : (match compile homonymText with
      | .ok script => script.chunk.constants.toList.map Datum.string?
      | .error _ => []) = [some "a", some "a", some "f", none] := by decide +kernel
  have pool' : (match compile exchangedText with
      | .ok script => script.chunk.constants.toList.map Datum.string?
      | .error _ => []) = [some "b", some "a", some "f", none] := by decide +kernel
  refine ⟨_, exchanged, ?_⟩
  rw [compile] at pool pool'
  rw [compile, compile]
  generalize compileTokens (tokens homonymText) = result at outcome pool
  generalize compileTokens (tokens exchangedText) = result' at outcome pool'
  cases outcome with
  | accepted renamed => exact ⟨_, _, rfl, rfl, pool, pool', renamed⟩
  | refused _ => cases pool

end StackScript
