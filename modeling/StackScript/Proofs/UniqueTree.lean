import Mathlib.Order.Filter.AtTopBot.Basic
import StackScript.Proofs.Parsing.Program
import StackScript.Proofs.Unambiguity

/-!
# One tree for a text

A reader takes a phrase off the front of tokens, as far as it goes, and gives its tree. It finds
the tree of every phrase that cannot go on with the tokens behind it, so tokens are a program in one
way only.
-/

namespace StackScript.Grammar

variable {tokens rest : List Token} {kind : Token.Kind}

/-! ## Readers of phrases -/

namespace Reader

variable (inner : Reader)

def closed? (ending : Token.Kind) (tokens : List Token) : Option (Expression × List Token) := do
  let (value, behind) ← inner .assignment tokens
  return (value, ← behind? ending behind)

def clause? (ending : Token.Kind) (tokens : List Token) :
    Option (Option Expression × List Token) :=
  match behind? ending tokens with
  | some rest => some (none, rest)
  | none => (inner.closed? ending tokens).map fun (value, rest) => (some value, rest)

def declared? : List Token → Option (Statement × List Token)
  | [] => none
  | name :: tokens =>
    match behind? .equal tokens with
    | some given => (inner.closed? .semicolon given).map fun (value, rest) =>
      (.varDeclaration name.lexeme (some value), rest)
    | none => (behind? .semicolon tokens).map fun rest =>
      (.varDeclaration name.lexeme none, rest)

def initial? (tokens : List Token) : Option (Statement × List Token) :=
  match behind? .semicolon tokens with
  | some rest => some (.empty, rest)
  | none =>
    match behind? (.keyword .varKw) tokens with
    | some rest => inner.declared? rest
    | none => (inner.closed? .semicolon tokens).map fun (value, rest) => (.expression value, rest)

end Reader

def parameters? : List Token → Option (List String × List Token)
  | [] => none
  | token :: rest =>
    if token.kind = .rightParen then some ([], rest)
    else if token.kind = .comma then parameters? rest
    else (parameters? rest).map fun (names, behind) => (token.lexeme :: names, behind)

/-- Takes a phrase off the front of tokens, in no more than `fuel` steps. -/
def phrase? : Nat → Category → List Token → Option (Statement × List Token)
  | 0, _, _ | _, _, [] => none
  | fuel + 1, .sequence, token :: rest =>
    if token.kind = .rightBrace ∨ token.kind = .endOfText then some (.empty, token :: rest)
    else do
      let (first, behind) ← phrase? fuel .declaration (token :: rest)
      let (others, behind) ← phrase? fuel .sequence behind
      return (.sequence first others, behind)
  | fuel + 1, .declaration, token :: rest =>
    match token.kind with
    | .keyword .varKw => (Reader.ofDepth fuel).declared? rest
    | .keyword .funKw => do
      let name ← rest.head?
      let (parameters, behind) ← parameters? rest.tail.tail
      let (body, behind) ← phrase? fuel .sequence behind.tail
      return (.funDeclaration name.lexeme parameters body, behind.tail)
    | _ => phrase? fuel .statement (token :: rest)
  | fuel + 1, .conditional, _ :: rest => do
    let (condition, behind) ← (Reader.ofDepth fuel).closed? .rightParen rest
    let (met, behind) ← phrase? fuel .statement behind
    let (unmet, behind) ← match behind.head?.map Token.kind with
      | some (.keyword .elifKw) => phrase? fuel .conditional behind.tail
      | some (.keyword .elseKw) => phrase? fuel .statement behind.tail
      | _ => some (.empty, behind)
    return (.conditional condition met unmet, behind)
  | fuel + 1, .statement, token :: rest =>
    match token.kind with
    | .keyword .printKw =>
      ((Reader.ofDepth fuel).closed? .semicolon rest).map fun (value, behind) =>
        (.print value, behind)
    | .leftBrace =>
      (phrase? fuel .sequence rest).map fun (body, behind) => (.block body, behind.tail)
    | .keyword .ifKw => phrase? fuel .conditional rest
    | .keyword .whileKw => do
      let (condition, behind) ← (Reader.ofDepth fuel).closed? .rightParen rest.tail
      let (body, behind) ← phrase? fuel .statement behind
      return (.whileLoop condition body, behind)
    | .keyword .forKw => do
      let (initial, behind) ← (Reader.ofDepth fuel).initial? rest.tail
      let (condition, behind) ← (Reader.ofDepth fuel).clause? .semicolon behind
      let (increment, behind) ← (Reader.ofDepth fuel).clause? .rightParen behind
      let (body, behind) ← phrase? fuel .statement behind
      return (.forLoop initial condition increment body, behind)
    | .keyword .breakKw => some (.breakLoop, rest.tail)
    | .keyword .continueKw => some (.continueLoop, rest.tail)
    | .keyword .returnKw =>
      ((Reader.ofDepth fuel).clause? .semicolon rest).map fun (value, behind) =>
        (.returnValue value, behind)
    | _ => ((Reader.ofDepth fuel).closed? .semicolon (token :: rest)).map fun (value, behind) =>
      (.expression value, behind)

/-! ## Parts of statements -/

open Filter Reader

/-- Whether an expression in front of a token of this kind has come to its end. -/
structure EndsExpression (kind : Token.Kind) : Prop where
  leading : kind.leading? = none
  trailing : kind.trailing? = none
  noTarget : kind ≠ .equal

theorem semicolon_endsExpression : EndsExpression .semicolon :=
  ⟨rfl, rfl, nofun⟩

theorem rightParen_endsExpression : EndsExpression .rightParen :=
  ⟨rfl, rfl, nofun⟩

section Parts

variable {value : Expression} {given : Option Expression} {ending : Token}

theorem Whole.behind?_eq_none (whole : Whole tokens value depth) (kind : Token.Kind)
    (leading : kind.leading? = none) : behind? kind (tokens ++ rest) = none := by
  rcases whole.exists_first with ⟨first, more, form, rfl, starts⟩
  apply behind?_ne
  rintro rfl
  rw [leading] at starts
  cases starts

theorem Whole.found (whole : Whole tokens value depth) (ends : ending.kind = kind)
    (stops : EndsExpression kind) :
    ∀ᶠ fuel in atTop, ∀ rest,
      (ofDepth fuel).closed? kind (tokens ++ ending :: rest) = some (value, rest) := by
  rcases whole with ⟨level, inner, chain, _⟩
  filter_upwards [eventually_gt_atTop inner] with fuel deep rest
  have operand := Found.operand chain.found rest deep chain.assignment_le
    (by rw [ends, Token.Kind.precedence, stops.trailing]; decide) fun _ => ends ▸ stops.noTarget
  simp [closed?, operand, behind?_eq ends]

theorem Clause.found (clause : Clause kind tokens given depth) (stops : EndsExpression kind) :
    ∀ᶠ fuel in atTop, ∀ rest,
      (ofDepth fuel).clause? kind (tokens ++ rest) = some (given, rest) := by
  cases clause with
  | missing ends => exact .of_forall fun fuel rest => by simp [clause?, behind?_eq ends]
  | present given ends =>
    filter_upwards [given.found ends stops] with fuel found rest
    simp [clause?, given.behind?_eq_none kind stops.leading, found]

theorem Variable.found {name : String} (declares : Variable tokens name given depth) :
    ∀ᶠ fuel in atTop, ∀ rest,
      (ofDepth fuel).declared? (tokens ++ rest) = some (.varDeclaration name given, rest) := by
  cases declares with
  | plain _ ends =>
    exact .of_forall fun fuel rest => by simp [declared?, behind?, ends]
  | initialized _ sign given ends =>
    filter_upwards [given.found ends semicolon_endsExpression] with fuel found rest
    simp [declared?, behind?_eq sign, found]

theorem Initial.found {initial : Statement} (starts : Initial tokens initial depth) :
    ∀ᶠ fuel in atTop, ∀ rest,
      (ofDepth fuel).initial? (tokens ++ rest) = some (initial, rest) := by
  cases starts with
  | missing ends => exact .of_forall fun fuel rest => by simp [initial?, behind?_eq ends]
  | varDeclaration introduces declares =>
    filter_upwards [declares.found] with fuel found rest
    simp [initial?, behind?, introduces, found]
  | expression given ends =>
    filter_upwards [given.found ends semicolon_endsExpression] with fuel found rest
    simp [initial?, given.behind?_eq_none .semicolon rfl,
      given.behind?_eq_none (.keyword .varKw) rfl, found]

theorem Separated.found {parameters : List String} {closing : Token}
    (takes : Separated Parameter tokens parameters) (closes : closing.kind = .rightParen)
    (rest : List Token) : parameters? (tokens ++ closing :: rest) = some (parameters, rest) := by
  induction takes with
  | none => simp [parameters?, closes]
  | last only =>
    rcases only with ⟨token, rfl, named, rfl⟩
    simp [parameters?, closes, named]
  | more first separator _ ih =>
    rcases first with ⟨token, rfl, named, rfl⟩
    simp [parameters?, named, separator, ih]

end Parts

/-! ## Phrases -/

def Stops (statement : Statement) (rest : List Token) : Category → Prop
  | .sequence => ∃ next more, rest = next :: more ∧
      (next.kind = .rightBrace ∨ next.kind = .endOfText)
  | _ => ∀ next ∈ rest.head?, statement.StopsAt next.kind

def FoundIn (category : Category) (tokens : List Token) (statement : Statement) : Prop :=
  ∀ᶠ fuel in atTop, ∀ rest, Stops statement rest category →
    phrase? fuel category (tokens ++ rest) = some (statement, rest)

section Phrases

variable {statement other met : Statement} {condition : Expression} {category : Category}

theorem FoundIn.of_succ (found : ∀ᶠ fuel in atTop, ∀ rest, Stops statement rest category →
    phrase? (fuel + 1) category (tokens ++ rest) = some (statement, rest)) :
    FoundIn category tokens statement := by
  rcases eventually_atTop.mp found with ⟨enough, found⟩
  refine eventually_atTop.mpr ⟨enough + 1, ?_⟩
  rintro (_ | fuel) more
  · omega
  · exact found fuel (Nat.le_of_succ_le_succ more)

theorem Phrase.stops_before (phrase : Phrase .sequence tokens other depth)
    (stops : Stops other rest .sequence) : Stops statement (tokens ++ rest) .declaration := by
  rcases stops with ⟨next, more, rfl, closes⟩
  rcases phrase.exists_next closes more with ⟨head, tail, same, _, notElif, notElse⟩
  intro first isFirst
  rw [same] at isFirst
  cases isFirst
  exact fun _ => ⟨notElif, notElse⟩

theorem stops_of_closed (closed : statement.isOpen = false) : Stops statement rest .statement := by
  intro next _ isOpen
  rw [closed] at isOpen
  cases isOpen

/-- Readers find the tree of every phrase. -/
theorem Phrase.found (phrase : Phrase category tokens statement depth) :
    FoundIn category tokens statement := by
  induction phrase with
  | expression given ends =>
    rcases given.exists_first with ⟨first, more, form, rfl, starts⟩
    apply FoundIn.of_succ
    filter_upwards [given.found ends semicolon_endsExpression] with fuel found rest _
    simp only [List.append_assoc, List.cons_append, List.nil_append] at found ⊢
    rw [phrase?]
    split <;> simp_all [Token.Kind.leading?]
  | print introduces given ends =>
    apply FoundIn.of_succ
    filter_upwards [given.found ends semicolon_endsExpression] with fuel found rest _
    simp [phrase?, introduces, found]
  | block opens inside closes ih =>
    apply FoundIn.of_succ
    filter_upwards [ih] with fuel found rest _
    simp [phrase?, opens, found _ ⟨_, _, rfl, .inl closes⟩]
  | branch introduces _ ih =>
    apply FoundIn.of_succ
    filter_upwards [ih] with fuel found rest stops
    simp [phrase?, introduces, found rest stops]
  | whileLoop introduces _ tested closes _ ih =>
    apply FoundIn.of_succ
    filter_upwards [tested.found closes rightParen_endsExpression, ih]
      with fuel test found rest stops
    simp [phrase?, introduces, test, found rest stops]
  | forLoop introduces _ starts tested advances _ ih =>
    apply FoundIn.of_succ
    filter_upwards [starts.found, tested.found semicolon_endsExpression,
      advances.found rightParen_endsExpression, ih] with fuel start test advance found rest stops
    simp [phrase?, introduces, start, test, advance, found rest stops]
  | breakLoop introduces _ | continueLoop introduces _ =>
    apply FoundIn.of_succ
    exact .of_forall fun fuel rest _ => by simp [phrase?, introduces]
  | returnValue introduces given =>
    apply FoundIn.of_succ
    filter_upwards [given.found semicolon_endsExpression] with fuel found rest _
    simp [phrase?, introduces, found]
  | alone _ tested closes _ ih =>
    apply FoundIn.of_succ
    filter_upwards [tested.found closes rightParen_endsExpression, ih]
      with fuel test found rest stops
    have here := found rest fun next isFirst _ => stops next isFirst rfl
    cases rest with
    | nil =>
      rw [List.append_nil] at here
      simp [phrase?, test, here]
    | cons next more =>
      -- What ends an open conditional is no further branch.
      rcases stops next rfl rfl with ⟨notElif, notElse⟩
      simp only [List.cons_append, List.append_assoc, phrase?, test, here, Option.bind_eq_bind,
        Option.bind_some, List.head?_cons, Option.map_some]
      split <;> simp_all
  | otherwise _ tested closes _ closed introduces _ ihMet ihUnmet
  | alternative _ tested closes _ closed introduces _ ihMet ihUnmet =>
    apply FoundIn.of_succ
    filter_upwards [tested.found closes rightParen_endsExpression, ihMet, ihUnmet] with
      fuel test foundMet foundUnmet rest stops
    have unmet := foundUnmet rest fun next isFirst => stopsAt_unmet (stops next isFirst)
    simp [phrase?, test, foundMet _ (stops_of_closed closed), introduces, unmet]
  | statement plain ih =>
    rcases plain.exists_first with ⟨first, more, rfl, opens⟩
    apply FoundIn.of_succ
    filter_upwards [ih] with fuel found rest stops
    rw [List.cons_append, phrase?]
    split
    · next isVar => simp [isVar, opensStatement] at opens
    · next isFun => simp [isFun, opensStatement] at opens
    · exact found rest stops
  | varDeclaration introduces declares =>
    apply FoundIn.of_succ
    filter_upwards [declares.found] with fuel found rest _
    simp [phrase?, introduces, found]
  | funDeclaration introduces _ _ takes closes _ _ ends ih =>
    apply FoundIn.of_succ
    filter_upwards [ih] with fuel found rest _
    simp [phrase?, introduces, takes.found closes, found _ ⟨_, _, rfl, .inl ends⟩]
  | nothing =>
    apply FoundIn.of_succ
    refine .of_forall fun fuel rest stops => ?_
    rcases stops with ⟨next, more, rfl, closes⟩
    simp [phrase?, closes]
  | more declares follows ihFirst ihRest =>
    rcases declares.exists_first_declaration with ⟨first, tail, rfl, opens⟩
    apply FoundIn.of_succ
    filter_upwards [ihFirst, ihRest] with fuel foundFirst foundRest rest stops
    have here := foundFirst _ (follows.stops_before stops)
    have notEnd : ¬(first.kind = .rightBrace ∨ first.kind = .endOfText) := by
      rintro (isBrace | isEnd) <;> simp_all [opensDeclaration]
    rw [List.cons_append] at here
    simp [phrase?, notEnd, here, foundRest rest stops]

/-- The tokens of a text are a program in one way only. -/
theorem Program.unique (program : Program tokens statement) (programToo : Program tokens other) :
    statement = other := by
  rcases program with ⟨_, front, ending, rfl, atEnd, phrase⟩
  rcases programToo with ⟨_, frontToo, endingToo, same, atEndToo, phraseToo⟩
  rcases (phrase.found.and phraseToo.found).exists with ⟨fuel, found, foundToo⟩
  have tree := found [ending] ⟨_, _, rfl, .inr atEnd⟩
  rw [same, foundToo [endingToo] ⟨_, _, rfl, .inr atEndToo⟩] at tree
  cases tree
  rfl

end Phrases

end StackScript.Grammar
