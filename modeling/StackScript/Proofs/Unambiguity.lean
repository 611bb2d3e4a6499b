import StackScript.Proofs.Climbing

/-!
# Expressions have one tree

A reader takes an expression off the front of tokens and gives its tree, without a limit to the
depth. It finds the tree of every derivation whose next token does not continue it, so no two
derivations start in the same way.
-/

namespace StackScript.Grammar

variable {rest tokens : List Token} {level : Precedence} {token : Token} {expression : Expression}
  {kind : Token.Kind}

/-- Takes an expression off tokens. -/
abbrev Reader := Precedence → List Token → Option (Expression × List Token)

/-- The tokens behind one of this kind. -/
def behind? (kind : Token.Kind) : List Token → Option (List Token)
  | [] => none
  | token :: rest => if token.kind = kind then some rest else none

namespace Reader

variable (inner : Reader)

def first? (level : Precedence) (token : Token) (rest : List Token) :
    Leading → Option (Expression × List Token)
  | .grouping => do
    let (expression, tokens) ← inner .assignment rest
    return (expression, ← behind? .rightParen tokens)
  | .unary operator => do
    let (operand, tokens) ← inner .unary rest
    return (.unary operator operand, tokens)
  | .variable =>
    match (if level ≤ .assignment then behind? .equal rest else none) with
    | some assigned => do
      let (value, tokens) ← inner .assignment assigned
      return (.assign token.lexeme value, tokens)
    | none => return (.reference token.lexeme, rest)
  | .string => return (.string (Compile.unquote token.lexeme), rest)
  | .number => do return (.number (← Number.parse? token.lexeme), rest)
  | .literal value => return (.literal value, rest)

def list? : Nat → List Token → Option (List Expression × List Token)
  | 0, _ => none
  | bound + 1, tokens => do
    let (first, rest) ← inner .assignment tokens
    match behind? .comma rest with
    | none => return ([first], rest)
    | some others =>
      let (arguments, behind) ← list? bound others
      return (first :: arguments, behind)

def extended? (left : Expression) (rest : List Token) : Trailing → Option (Expression × List Token)
  | .call =>
    match behind? .rightParen rest with
    | some behind => return (.call left [], behind)
    | none => do
      let (arguments, behind) ← inner.list? rest.length rest
      return (.call left arguments, ← behind? .rightParen behind)
  | .binary operator => do
    let (right, behind) ← inner operator.precedence.tighter rest
    return (.binary operator left right, behind)
  | .and => do
    let (right, behind) ← inner .and rest
    return (.and left right, behind)
  | .or => do
    let (right, behind) ← inner .or rest
    return (.or left right, behind)

def onward? (level : Precedence) : Nat → Expression → List Token →
    Option (Expression × List Token)
  | 0, left, tokens => some (left, tokens)
  | _, left, [] => some (left, [])
  | bound + 1, left, token :: rest =>
    match token.kind.trailing? with
    | none => some (left, token :: rest)
    | some form =>
      if level ≤ form.precedence then do
        let (longer, behind) ← inner.extended? left rest form
        onward? level bound longer behind
      else some (left, token :: rest)

/-- The reader that goes so deep. -/
def ofDepth : Nat → Reader
  | 0, _, _ => none
  | _, _, [] => none
  | depth + 1, level, token :: rest => do
    let (first, behind) ← first? (ofDepth depth) level token rest (← token.kind.leading?)
    onward? (ofDepth depth) level behind.length first behind

end Reader

open Reader

/-- Whether readers find a part and go on. -/
def Found (tokens : List Token) (expression : Expression) (reached : Precedence) (depth : Nat) :
    Prop :=
  ∀ {below : Nat} {level : Precedence} {next : Token} {rest : List Token}
    {result : Option (Expression × List Token)},
    depth ≤ below → level ≤ reached → next.kind.Extends reached →
    (level ≤ .assignment → next.kind ≠ .equal) →
    (∀ bound, rest.length < bound →
      onward? (ofDepth below) level bound expression (next :: rest) = result) →
    ofDepth (below + 1) level (tokens ++ next :: rest) = result

def FoundAll (tokens : List Token) (arguments : List Expression) (depth : Nat) : Prop :=
  ∀ {below bound : Nat} {closing : Token} (rest : List Token),
    arguments ≠ [] → depth ≤ below → closing.kind = .rightParen → tokens.length ≤ bound →
    list? (ofDepth below) bound (tokens ++ closing :: rest) = some (arguments, closing :: rest)

theorem ofDepth_cons {below : Nat} {form : Leading} (starts : token.kind.leading? = some form) :
    ofDepth (below + 1) level (token :: rest) =
      (first? (ofDepth below) level token rest form).bind fun found =>
        onward? (ofDepth below) level found.2.length found.1 found.2 := by
  rw [ofDepth, starts]
  rfl

theorem onward?_stop {inner : Reader} {bound : Nat} {left : Expression}
    (stops : ¬level ≤ token.kind.precedence) :
    onward? inner level bound left (token :: rest) = some (left, token :: rest) := by
  cases bound with
  | zero => rfl
  | succ bound =>
    rw [onward?]
    rw [Token.Kind.precedence] at stops
    cases trails : token.kind.trailing? with
    | none => rfl
    | some form =>
      rw [trails] at stops
      exact if_neg stops

theorem Found.operand {reached : Precedence} {depth below : Nat} {next : Token}
    (found : Found tokens expression reached depth) (rest : List Token) (deep : depth < below)
    (tight : level ≤ reached) (stops : ¬level ≤ next.kind.precedence)
    (noTarget : level ≤ .assignment → next.kind ≠ .equal) :
    ofDepth below level (tokens ++ next :: rest) = some (expression, next :: rest) := by
  cases below with
  | zero => omega
  | succ below =>
    exact found (Nat.lt_succ_iff.mp deep) tight
      (extends_mono (extends_of_not_le stops) tight) noTarget
      fun bound _ => onward?_stop stops

theorem behind?_eq (found : token.kind = kind) : behind? kind (token :: rest) = some rest :=
  if_pos found

theorem behind?_ne (other : token.kind ≠ kind) : behind? kind (token :: rest) = none :=
  if_neg other

/-! ## First operands -/

section Leading

variable {token : Token} {tokens : List Token} {expression : Expression} {depth : Nat}
  {reached : Precedence}

theorem plain_found {form : Leading} (starts : token.kind.leading? = some form)
    (reads : ∀ (inner : Reader) (level : Precedence) (next : Token) (rest : List Token),
      (level ≤ .assignment → next.kind ≠ .equal) →
      first? inner level token (next :: rest) form = some (expression, next :: rest)) :
    Found [token] expression .primary 0 := by
  intro below level next rest result _ _ _ noTarget onward
  rw [List.singleton_append, ofDepth_cons starts, reads _ _ _ _ noTarget]
  exact onward _ (Nat.lt_succ_self _)

theorem number_found {value : Float} (kind : token.kind = .number)
    (denotes : Number.parse? token.lexeme = some value) :
    Found [token] (.number value) .primary 0 := by
  apply plain_found (by rw [kind]; rfl)
  intro inner level next rest _
  rw [first?, denotes]
  rfl

theorem string_found (kind : token.kind = .string) :
    Found [token] (.string (Compile.unquote token.lexeme)) .primary 0 :=
  plain_found (by rw [kind]; rfl) fun _ _ _ _ _ => rfl

theorem literal_found {value : KeywordLiteral}
    (kind : token.kind.leading? = some (.literal value)) :
    Found [token] (.literal value) .primary 0 :=
  plain_found kind fun _ _ _ _ _ => rfl

theorem reference_found (kind : token.kind = .identifier) :
    Found [token] (.reference token.lexeme) .primary 0 := by
  apply plain_found (by rw [kind]; rfl)
  intro inner level next rest noTarget
  rw [first?]
  by_cases loose : level ≤ .assignment
  · rw [if_pos loose, behind?_ne (noTarget loose)]
    rfl
  · rw [if_neg loose]
    rfl

theorem grouping_found {opening closing : Token} (opens : opening.kind = .leftParen)
    (inside : Chain tokens expression reached depth) (found : Found tokens expression reached depth)
    (closes : closing.kind = .rightParen) :
    Found (opening :: tokens ++ [closing]) expression .primary (depth + 1) := by
  intro below level next rest result deep _ _ _ onward
  have operand := found.operand (next :: rest) deep inside.assignment_le
    (by rw [closes]; decide) (by rw [closes]; decide)
  rw [List.append_assoc, List.cons_append, List.singleton_append,
    ofDepth_cons (show opening.kind.leading? = some .grouping by rw [opens]; rfl), first?, operand]
  simp only [bind, Option.bind, behind?_eq closes, pure]
  exact onward _ (Nat.lt_succ_self _)

theorem unary_found {operator : UnaryOperator}
    (kind : token.kind.leading? = some (.unary operator))
    (found : Found tokens expression reached depth) (tight : .unary ≤ reached) :
    Found (token :: tokens) (.unary operator expression) .unary (depth + 1) := by
  intro below level next rest result deep _ goesOn _ onward
  have operand := found.operand rest deep tight
    (stops_of_extends .unary goesOn (by decide) (by decide)) (fun loose => absurd loose (by decide))
  rw [List.cons_append, ofDepth_cons kind, first?, operand]
  exact onward _ (Nat.lt_succ_self _)

theorem assign_found {name equals : Token} (target : name.kind = .identifier)
    (sign : equals.kind = .equal) (assigned : Chain tokens expression reached depth)
    (found : Found tokens expression reached depth) :
    Found (name :: equals :: tokens) (.assign name.lexeme expression) .assignment (depth + 1) := by
  intro below level next rest result deep loose goesOn noTarget onward
  have operand := found.operand rest deep assigned.assignment_le
    (stops_of_extends .assignment goesOn (by decide) (by decide)) (fun _ => noTarget loose)
  rw [List.cons_append, List.cons_append,
    ofDepth_cons (show name.kind.leading? = some .variable by rw [target]; rfl), first?,
    if_pos loose, behind?_eq sign]
  simp only [operand, bind, Option.bind, pure]
  exact onward _ (Nat.lt_succ_self _)

end Leading

/-! ## Arguments -/

section Arguments

variable {tokens rest : List Token} {expression : Expression} {reached : Precedence}
  {depth inner : Nat}

theorem last_found (only : Chain tokens expression reached depth)
    (found : Found tokens expression reached depth) : FoundAll tokens [expression] (depth + 1) := by
  intro below bound closing rest _ deep closes enough
  have operand := found.operand rest deep only.assignment_le
    (by rw [closes]; decide) (by rw [closes]; decide)
  rcases only.exists_first with ⟨first, more, form, rfl, starts⟩
  cases bound with
  | zero => simp at enough
  | succ bound =>
    rw [list?, operand]
    simp only [bind, Option.bind, behind?_ne (show closing.kind ≠ .comma by rw [closes]; decide),
      pure]

theorem more_found {comma : Token} {next : Expression} {others : List Expression}
    (first : Chain tokens expression reached depth) (found : Found tokens expression reached depth)
    (separator : comma.kind = .comma) (foundAll : FoundAll rest (next :: others) inner) :
    FoundAll (tokens ++ comma :: rest) (expression :: next :: others) (max (depth + 1) inner) := by
  intro below bound closing behind _ deep closes enough
  have operand := found.operand (rest ++ closing :: behind)
    (show depth < below by omega) first.assignment_le
    (by rw [separator]; decide) (by rw [separator]; decide)
  rw [List.append_assoc, List.cons_append]
  cases bound with
  | zero => simp at enough
  | succ bound =>
    simp only [List.length_append, List.length_cons] at enough
    have others := foundAll behind (List.cons_ne_nil _ _)
      (show inner ≤ below by omega) closes (show rest.length ≤ bound by omega)
    rw [list?, operand]
    simp only [bind, Option.bind, behind?_eq separator, others, pure]

end Arguments

/-! ## What extends an operand -/

section Trailing

variable {token : Token} {front back : List Token} {left right whole : Expression}
  {reached behind : Precedence} {depth inner : Nat}

theorem extended_found (form : Trailing) (kind : token.kind.trailing? = some form)
    (found : Found front left reached depth) (tight : form.frontLevel ≤ reached)
    (reads : ∀ {below : Nat} {next : Token} {rest : List Token}, inner ≤ below →
      next.kind.Extends form.precedence →
      extended? (ofDepth below) left (back ++ next :: rest) form = some (whole, next :: rest)) :
    Found (front ++ token :: back) whole form.precedence (max depth inner) := by
  intro below level next rest result deep level_le goesOn noTarget onward
  have extendsFront : token.kind.Extends reached := by
    intro other isOther
    rw [kind] at isOther
    cases isOther
    exact tight
  have noSign : level ≤ .assignment → token.kind ≠ .equal := by
    intro _ isEqual
    rw [isEqual] at kind
    cases kind
  rw [List.append_assoc, List.cons_append]
  apply found (by omega)
    (Precedence.le_trans level_le (Precedence.le_trans form.precedence_le_frontLevel tight))
    extendsFront noSign
  intro bound enough
  cases bound with
  | zero => omega
  | succ bound =>
    simp only [List.length_append, List.length_cons] at enough
    rw [onward?, kind]
    simp only [if_pos level_le, reads (show inner ≤ below by omega) goesOn, bind, Option.bind]
    exact onward bound (by omega)

variable (found : Found front left reached depth)
include found

theorem binary_found {operator : BinaryOperator} (tight : operator.precedence ≤ reached)
    (kind : token.kind.trailing? = some (.binary operator))
    (foundRight : Found back right behind inner) (tighter : operator.precedence.tighter ≤ behind) :
    Found (front ++ token :: back) (.binary operator left right) operator.precedence
      (max depth (inner + 1)) := by
  refine extended_found (.binary operator) kind found tight ?_
  intro below next rest deep goesOn
  have stops := stops_of_extends operator.precedence goesOn (by cases operator <;> decide)
    (by cases operator <;> decide)
  rw [operator.rightLevel_precedence] at stops
  rw [extended?, foundRight.operand rest deep tighter stops
    (fun loose => absurd loose (by cases operator <;> decide))]
  rfl

theorem and_found (tight : .equality ≤ reached) (kind : token.kind = .keyword .andKw)
    (foundRight : Found back right behind inner) (tighter : .and ≤ behind) :
    Found (front ++ token :: back) (.and left right) .and (max depth (inner + 1)) := by
  refine extended_found .and (by rw [kind]; rfl) found tight ?_
  intro below next rest deep goesOn
  rw [extended?, foundRight.operand rest deep tighter
    (stops_of_extends .and goesOn (by decide) (by decide)) (fun loose => absurd loose (by decide))]
  rfl

theorem or_found (tight : .and ≤ reached) (kind : token.kind = .keyword .orKw)
    (foundRight : Found back right behind inner) (tighter : .or ≤ behind) :
    Found (front ++ token :: back) (.or left right) .or (max depth (inner + 1)) := by
  refine extended_found .or (by rw [kind]; rfl) found tight ?_
  intro below next rest deep goesOn
  rw [extended?, foundRight.operand rest deep tighter
    (stops_of_extends .or goesOn (by decide) (by decide)) (fun loose => absurd loose (by decide))]
  rfl

theorem call_found {opening closing : Token} {inside : List Token} {arguments : List Expression}
    (tight : .call ≤ reached) (opens : opening.kind = .leftParen)
    (given : Given inside arguments inner) (foundAll : FoundAll inside arguments inner)
    (closes : closing.kind = .rightParen) :
    Found (front ++ opening :: inside ++ [closing]) (.call left arguments) .call
      (max depth inner) := by
  rw [List.append_assoc, List.cons_append]
  refine extended_found .call (by rw [opens]; rfl) found tight ?_
  intro below next rest deep _
  rw [extended?, List.append_assoc, List.singleton_append]
  cases arguments with
  | nil =>
    cases given
    rw [List.nil_append, behind?_eq closes]
    rfl
  | cons argument others =>
    rcases given.exists_first with ⟨first, more, form, rfl, starts⟩
    have notClosed : first.kind ≠ .rightParen := by
      intro isParen
      rw [isParen] at starts
      cases starts
    have all := foundAll (next :: rest) (List.cons_ne_nil _ _) deep closes
      (show (first :: more).length ≤ (first :: more ++ closing :: next :: rest).length by simp)
    rw [List.cons_append, behind?_ne notClosed]
    rw [List.cons_append] at all
    simp only [all, bind, Option.bind, behind?_eq closes, pure]

end Trailing

theorem Chain.found {depth : Nat} (chain : Chain tokens expression level depth) :
    Found tokens expression level depth := by
  refine @Chain.rec (fun tokens expression level depth _ => Found tokens expression level depth)
    (fun tokens arguments depth _ => FoundAll tokens arguments depth)
    ?number ?string ?literal ?reference ?grouping ?unary ?assign ?call ?binary ?and ?or
    ?none ?last ?more tokens expression level depth chain
  case number => exact fun kind denotes => number_found kind denotes
  case string => exact fun kind => string_found kind
  case literal => exact fun kind => literal_found kind
  case reference => exact fun kind => reference_found kind
  case grouping => exact fun opens inside closes found => grouping_found opens inside found closes
  case unary => exact fun kind _ tight found => unary_found kind found tight
  case assign => exact fun target sign assigned found => assign_found target sign assigned found
  case call =>
    exact fun _ tight opens given closes found foundAll =>
      call_found found tight opens given foundAll closes
  case binary =>
    exact fun _ tight kind _ tighter found foundRight =>
      binary_found found tight kind foundRight tighter
  case and =>
    exact fun _ tight kind _ tighter found foundRight =>
      and_found found tight kind foundRight tighter
  case or =>
    exact fun _ tight kind _ tighter found foundRight =>
      or_found found tight kind foundRight tighter
  case none => exact fun _ isEmpty => absurd rfl isEmpty
  case last => exact fun only found => last_found only found
  case more =>
    exact fun first separator _ found foundAll => more_found first found separator foundAll

/-- Two expressions at the front of the same tokens that nothing continues are the same one. -/
theorem Operand.unique {others behind : List Token} {other : Expression} {next ahead : Token}
    (derives : Operand .assignment tokens expression) (derives' : Operand .assignment others other)
    (sameTokens : tokens ++ next :: rest = others ++ ahead :: behind)
    (stops : next.kind.trailing? = none) (noTarget : next.kind ≠ .equal)
    (stops' : ahead.kind.trailing? = none) (noTarget' : ahead.kind ≠ .equal) :
    tokens = others ∧ expression = other := by
  rcases derives with ⟨level, depth, tight, chain⟩
  rcases derives' with ⟨level', depth', tight', chain'⟩
  have found := Found.operand chain.found rest
    (show depth < max depth depth' + 1 by omega) tight
    (by rw [Token.Kind.precedence, stops]; decide) (fun _ => noTarget)
  have found' := Found.operand chain'.found behind
    (show depth' < max depth depth' + 1 by omega) tight'
    (by rw [Token.Kind.precedence, stops']; decide) (fun _ => noTarget')
  rw [sameTokens, found'] at found
  simp only [Option.some.injEq, Prod.mk.injEq] at found
  rw [found.2] at sameTokens
  exact ⟨List.append_cancel_right sameTokens, found.1.symm⟩

end StackScript.Grammar
