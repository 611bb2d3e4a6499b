import StackScript.Proofs.Reading.Expression

/-!
# How expressions go on and phrases start

Whether an expression goes on is told by the token behind it and by how tightly it binds so far.
What a phrase can start with is told by the kind of its first token.
-/

namespace StackScript

/-- Whether a token is none of an error. -/
def Token.Readable (token : Token) : Prop :=
  ∀ reason, token.kind ≠ .error reason

/-- How tightly the operand behind an operator of this level has to bind. -/
def Precedence.rightLevel : Precedence → Precedence
  | .equality => .comparison
  | .comparison => .term
  | .term => .factor
  | .factor => .unary
  | level => level

theorem BinaryOperator.rightLevel_precedence (operator : BinaryOperator) :
    operator.precedence.rightLevel = operator.precedence.tighter := by
  cases operator <;> rfl

theorem Trailing.precedence_le_frontLevel (form : Trailing) :
    form.precedence ≤ form.frontLevel := by
  cases form with
  | binary operator => exact Precedence.le_refl _
  | _ => decide

theorem Trailing.not_rightLevel_le {form : Trailing} {level : Precedence}
    (prefixes : level ≤ .unary) (front : form.frontLevel ≤ level) :
    ¬level.rightLevel ≤ form.precedence := by
  revert prefixes front
  cases form with
  | binary operator => cases operator <;> cases level <;> decide
  | _ => cases level <;> decide

namespace Token.Kind

/-- Whether what continues an expression at `level` by such a token finds a left operand in it. -/
def Extends (level : Precedence) (kind : Token.Kind) : Prop :=
  ∀ form, kind.trailing? = some form → form.frontLevel ≤ level

end Token.Kind

namespace Token

variable {token : Token}

theorem readable_of_leading {form : Leading} (starts : token.kind.leading? = some form) :
    token.Readable := by
  intro reason isError
  rw [isError] at starts
  cases starts

theorem readable_of_trailing {form : Trailing} (goesOn : token.kind.trailing? = some form) :
    token.Readable := by
  intro reason isError
  rw [isError] at goesOn
  cases goesOn

theorem readable_of_eq {kind : Token.Kind} (isKind : token.kind = kind)
    (noError : ∀ reason, kind ≠ .error reason) : token.Readable := by
  intro reason isError
  exact noError reason (isKind.symm.trans isError)

end Token

namespace Grammar

variable {kind : Token.Kind} {level : Precedence} {tokens : List Token} {expression : Expression}
  {name : String} {initial given : Option Expression} {statement : Statement} {depth : Nat}

theorem extends_of_not_le (stops : ¬level ≤ kind.precedence) : kind.Extends level := by
  intro form goesOn
  rw [Token.Kind.precedence, goesOn] at stops
  revert stops
  cases form with
  | binary operator => cases operator <;> cases level <;> decide
  | _ => cases level <;> decide

theorem extends_mono {loose tight : Precedence} (extends_ : kind.Extends loose)
    (binds : loose ≤ tight) : kind.Extends tight :=
  fun form goesOn => Precedence.le_trans (extends_ form goesOn) binds

theorem stops_of_extends (level : Precedence) (goesOn : kind.Extends level)
    (loose : .assignment ≤ level) (prefixes : level ≤ .unary) :
    ¬level.rightLevel ≤ kind.precedence := by
  rw [Token.Kind.precedence]
  cases trails : kind.trailing? with
  | none =>
    revert loose
    cases level <;> decide
  | some form => exact Trailing.not_rightLevel_le prefixes (goesOn form trails)

/-! ## How phrases start -/

/-- Whether a declaration can start so. -/
def opensDeclaration : Token.Kind → Bool
  | .rightBrace | .endOfText | .keyword .elifKw | .keyword .elseKw | .error _ => false
  | _ => true

/-- Whether a statement can start so. -/
def opensStatement : Token.Kind → Bool
  | .keyword .funKw | .keyword .varKw => false
  | kind => opensDeclaration kind

theorem opensStatement_of_leading {form : Leading} (starts : kind.leading? = some form) :
    opensStatement kind = true := by
  cases kind with
  | keyword word => cases word <;> first | rfl | cases starts
  | _ => first | rfl | cases starts

theorem opensDeclaration_of_opensStatement (opens : opensStatement kind = true) :
    opensDeclaration kind = true := by
  unfold opensStatement at opens
  split at opens
  · cases opens
  · cases opens
  · exact opens

theorem readable_of_opens {token : Token} (opens : opensDeclaration token.kind = true) :
    token.Readable := by
  intro reason isError
  rw [isError] at opens
  cases opens

theorem Whole.exists_first (whole : Whole tokens expression depth) :
    ∃ first rest form, tokens = first :: rest ∧ first.kind.leading? = some form := by
  rcases whole with ⟨level, inner, chain, _⟩
  exact chain.exists_first

theorem Variable.exists_first (declares : Variable tokens name initial depth) :
    ∃ first rest, tokens = first :: rest ∧ first.kind = .identifier := by
  cases declares with
  | plain named => exact ⟨_, _, rfl, named⟩
  | initialized named => exact ⟨_, _, rfl, named⟩

theorem Clause.exists_first {ending : Token.Kind} (clause : Clause ending tokens given depth)
    (readable : ∀ reason, ending ≠ .error reason) :
    ∃ first rest, tokens = first :: rest ∧ first.Readable := by
  cases clause with
  | missing ends => exact ⟨_, _, rfl, Token.readable_of_eq ends readable⟩
  | present value _ =>
    rcases value.exists_first with ⟨first, rest, form, rfl, starts⟩
    exact ⟨first, _, rfl, Token.readable_of_leading starts⟩

theorem Initial.exists_first (starts : Initial tokens statement depth) :
    ∃ first rest, tokens = first :: rest ∧ first.Readable := by
  cases starts with
  | missing ends => exact ⟨_, _, rfl, Token.readable_of_eq ends (by simp)⟩
  | varDeclaration introduces => exact ⟨_, _, rfl, Token.readable_of_eq introduces (by simp)⟩
  | expression value _ =>
    rcases value.exists_first with ⟨first, rest, form, rfl, starts⟩
    exact ⟨first, _, rfl, Token.readable_of_leading starts⟩

theorem Phrase.exists_opening (phrase : Phrase .conditional tokens statement depth) :
    ∃ opening rest, tokens = opening :: rest ∧ opening.kind = .leftParen := by
  cases phrase with
  | alone opens => exact ⟨_, _, rfl, opens⟩
  | otherwise opens => exact ⟨_, _, rfl, opens⟩
  | alternative opens => exact ⟨_, _, rfl, opens⟩

theorem Phrase.exists_first (phrase : Phrase .statement tokens statement depth) :
    ∃ first rest, tokens = first :: rest ∧ opensStatement first.kind = true := by
  cases phrase with
  | expression given ends =>
    rcases given.exists_first with ⟨first, rest, form, rfl, starts⟩
    exact ⟨first, _, rfl, opensStatement_of_leading starts⟩
  | block opens => exact ⟨_, _, rfl, by rw [opens]; rfl⟩
  | print introduces | branch introduces | whileLoop introduces | forLoop introduces
  | breakLoop introduces | continueLoop introduces | returnValue introduces =>
    exact ⟨_, _, rfl, by rw [introduces]; rfl⟩

theorem Phrase.exists_first_declaration (phrase : Phrase .declaration tokens statement depth) :
    ∃ first rest, tokens = first :: rest ∧ opensDeclaration first.kind = true := by
  cases phrase with
  | statement plain =>
    rcases plain.exists_first with ⟨first, rest, rfl, opens⟩
    exact ⟨first, rest, rfl, opensDeclaration_of_opensStatement opens⟩
  | varDeclaration introduces | funDeclaration introduces =>
    exact ⟨_, _, rfl, by rw [introduces]; rfl⟩

end Grammar

end StackScript
