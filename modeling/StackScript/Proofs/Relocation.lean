import StackScript.Proofs.Climbing
import StackScript.Proofs.Tiling

/-!
# Places of tokens do not matter to the grammar

A phrase is a phrase wherever it stands in the text: with its tokens moved to other places it is the
same tree, with the same depth.
-/

namespace StackScript

/-- A token at another place. -/
def Token.moved (place : Token → Token) (token : Token) : Token :=
  { token with start := (place token).start, line := (place token).line }

theorem exists_split {front back moved : List Token}
    (same : List.Forall₂ Token.Same (front ++ back) moved) :
    ∃ front' back', moved = front' ++ back' ∧ List.Forall₂ Token.Same front front' ∧
      List.Forall₂ Token.Same back back' :=
  ⟨_, _, (List.take_append_drop front.length moved).symm,
    by simpa using List.forall₂_take front.length same,
    by simpa using List.forall₂_drop front.length same⟩

theorem exists_moved {tokens elsewhere : List Token} (distinct : tokens.Nodup)
    (same : List.Forall₂ Token.Same tokens elsewhere) :
    ∃ place, elsewhere = tokens.map (Token.moved place) := by
  induction same with
  | nil => exact ⟨id, rfl⟩
  | @cons token other tokens elsewhere same _ ih =>
    rcases List.nodup_cons.mp distinct with ⟨unlisted, distinctRest⟩
    rcases ih distinctRest with ⟨place, rfl⟩
    refine ⟨Function.update place token other, ?_⟩
    have rest : ∀ listed ∈ tokens,
        listed.moved place = listed.moved (Function.update place token other) := by
      intro listed present
      rw [Token.moved, Token.moved, Function.update_of_ne (ne_of_mem_of_not_mem present unlisted)]
    rw [List.map_cons, ← List.map_congr_left rest, Token.moved, Function.update_self, same.kind_eq,
      same.lexeme_eq]

theorem nodup_tokens {text : String} {front : List Token} {ending : Token}
    (tokensEq : tokens text = front ++ [ending]) : front.Nodup := by
  rcases exists_tiled text with ⟨_, _, _, tiled, tiledEq, _⟩
  rw [← tiledEq, tokensEq] at tiled
  refine (List.pairwise_append.mp tiled.pairwise).1.imp_of_mem ?_
  rintro token _ present _ apart rfl
  have some := (tiled.kind_ne present).2
  omega

namespace Grammar

variable {place : Token → Token} {tokens : List Token} {depth : Nat}

theorem Chain.moved {expression : Expression} {level : Precedence}
    (chain : Chain tokens expression level depth) :
    Chain (tokens.map (Token.moved place)) expression level depth := by
  refine @Chain.rec
    (fun tokens expression level depth _ =>
      Chain (tokens.map (Token.moved place)) expression level depth)
    (fun tokens arguments depth _ => Given (tokens.map (Token.moved place)) arguments depth)
    ?number ?string ?literal ?reference ?grouping ?unary ?assign ?call ?binary ?and ?or
    ?none ?last ?more tokens expression level depth chain
  all_goals intros
  any_goals rw [List.map_append]
  case number kind denotes => exact .number kind denotes
  case string kind => exact .string kind
  case literal kind => exact .literal kind
  case reference kind => exact .reference kind
  case grouping opens _ closes ih => exact .grouping opens ih closes
  case unary kind _ tight ih => exact .unary kind ih tight
  case assign target sign _ ih => exact .assign target sign ih
  case call tight opens _ closes ih ihGiven =>
    rw [List.map_append]
    exact .call ih tight opens ihGiven closes
  case binary tight kind _ tighter ih ihRight => exact .binary ih tight kind ihRight tighter
  case and tight kind _ tighter ih ihRight => exact .and ih tight kind ihRight tighter
  case or tight kind _ tighter ih ihRight => exact .or ih tight kind ihRight tighter
  case none => exact .none
  case last ih => exact .last ih
  case more separator _ ih ihOthers => exact .more ih separator ihOthers

theorem Separated.moved {parameters : List String}
    (takes : Separated Parameter tokens parameters) :
    Separated Parameter (tokens.map (Token.moved place)) parameters := by
  have parameter {tokens : List Token} {name : String} (takes : Parameter tokens name) :
      Parameter (tokens.map (Token.moved place)) name := by
    rcases takes with ⟨token, rfl, isName⟩
    exact ⟨token.moved place, rfl, isName⟩
  induction takes with
  | none => exact .none
  | last only => exact .last (parameter only)
  | more first separator _ ih =>
    rw [List.map_append]
    exact .more (parameter first) separator ih

theorem Whole.moved {expression : Expression} (whole : Whole tokens expression depth) :
    Whole (tokens.map (Token.moved place)) expression depth := by
  rcases whole with ⟨level, inner, chain, depthEq⟩
  exact ⟨level, inner, chain.moved, depthEq⟩

theorem Variable.moved {name : String} {initial : Option Expression}
    (declares : Variable tokens name initial depth) :
    Variable (tokens.map (Token.moved place)) name initial depth := by
  cases declares with
  | plain named ends => exact .plain named ends
  | initialized named sign value ends =>
    rw [List.map_append]
    exact .initialized named sign value.moved ends

theorem Clause.moved {ending : Token.Kind} {given : Option Expression}
    (clause : Clause ending tokens given depth) :
    Clause ending (tokens.map (Token.moved place)) given depth := by
  cases clause with
  | missing ends => exact .missing ends
  | present value ends =>
    rw [List.map_append]
    exact .present value.moved ends

theorem Initial.moved {initial : Statement} (starts : Initial tokens initial depth) :
    Initial (tokens.map (Token.moved place)) initial depth := by
  cases starts with
  | missing ends => exact .missing ends
  | varDeclaration introduces declares => exact .varDeclaration introduces declares.moved
  | expression value ends =>
    rw [List.map_append]
    exact .expression value.moved ends

/-- A phrase is a phrase wherever it stands. -/
theorem Phrase.moved {category : Category} {statement : Statement}
    (phrase : Phrase category tokens statement depth) :
    Phrase category (tokens.map (Token.moved place)) statement depth := by
  induction phrase with
  | expression given ends =>
    rw [List.map_append]
    exact .expression given.moved ends
  | print introduces given ends =>
    rw [List.map_append]
    exact .print introduces given.moved ends
  | block opens _ closes ih =>
    rw [List.map_append]
    exact .block opens ih closes
  | branch introduces _ ih => exact .branch introduces ih
  | whileLoop introduces opens tested closes _ ih =>
    rw [List.map_append]
    exact .whileLoop introduces opens tested.moved closes ih
  | forLoop introduces opens starts tested advances _ ih =>
    rw [List.map_append, List.map_append, List.map_append]
    exact .forLoop introduces opens starts.moved tested.moved advances.moved ih
  | breakLoop introduces ends => exact .breakLoop introduces ends
  | continueLoop introduces ends => exact .continueLoop introduces ends
  | returnValue introduces given => exact .returnValue introduces given.moved
  | alone opens tested closes _ ih =>
    rw [List.map_append]
    exact .alone opens tested.moved closes ih
  | otherwise opens tested closes _ closed introduces _ ihMet ihUnmet =>
    rw [List.map_append, List.map_append]
    exact .otherwise opens tested.moved closes ihMet closed introduces ihUnmet
  | alternative opens tested closes _ closed introduces _ ihMet ihUnmet =>
    rw [List.map_append, List.map_append]
    exact .alternative opens tested.moved closes ihMet closed introduces ihUnmet
  | statement _ ih => exact .statement ih
  | varDeclaration introduces declares => exact .varDeclaration introduces declares.moved
  | funDeclaration introduces named opens takes closes begins _ ends ih =>
    rw [List.map_append, List.map_append]
    exact .funDeclaration introduces named opens takes.moved closes begins ih ends
  | nothing => exact .nothing
  | more _ _ ihFirst ihRest =>
    rw [List.map_append]
    exact .more ihFirst ihRest

end Grammar

end StackScript
