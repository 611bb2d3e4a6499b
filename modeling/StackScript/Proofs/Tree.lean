import StackScript.Precedence

/-!
# Syntax trees

Programs as trees, free of tokens, positions and code. Parentheses leave no trace in a tree, and a
further condition of a conditional is a conditional in its other branch. A branch that is missing is
the empty statement.
-/

namespace StackScript

/-- An expression. Numbers and strings are what their characters denote. -/
inductive Expression where
  | number (value : Float)
  | string (text : String)
  | literal (value : KeywordLiteral)
  | reference (name : String)
  | assign (name : String) (value : Expression)
  | unary (operator : UnaryOperator) (operand : Expression)
  | binary (operator : BinaryOperator) (left right : Expression)
  | and (left right : Expression)
  | or (left right : Expression)
  | call (callee : Expression) (arguments : List Expression)

/-- Induction over expressions, with the hypothesis for every argument of a call. -/
@[induction_eliminator]
theorem Expression.induction {motive : Expression → Prop}
    (number : ∀ value, motive (.number value))
    (string : ∀ text, motive (.string text))
    (literal : ∀ value, motive (.literal value))
    (reference : ∀ name, motive (.reference name))
    (assign : ∀ name value, motive value → motive (.assign name value))
    (unary : ∀ operator operand, motive operand → motive (.unary operator operand))
    (binary : ∀ operator left right, motive left → motive right →
      motive (.binary operator left right))
    (and : ∀ left right, motive left → motive right → motive (.and left right))
    (or : ∀ left right, motive left → motive right → motive (.or left right))
    (call : ∀ callee arguments, motive callee → (∀ argument ∈ arguments, motive argument) →
      motive (.call callee arguments))
    (expression : Expression) : motive expression :=
  @Expression.rec motive (fun arguments => ∀ argument ∈ arguments, motive argument)
    number string literal reference assign unary binary and or call
    (by simp)
    (fun first rest firstHolds restHolds => by
      intro argument present
      rcases List.mem_cons.mp present with rfl | later
      · exact firstHolds
      · exact restHolds argument later)
    expression

mutual

/-- Whether every variable of an expression has a name with characters in it. -/
def Expression.Named : Expression → Prop
  | .reference name => name ≠ ""
  | .assign name value => name ≠ "" ∧ value.Named
  | .unary _ operand => operand.Named
  | .binary _ left right => left.Named ∧ right.Named
  | .and left right => left.Named ∧ right.Named
  | .or left right => left.Named ∧ right.Named
  | .call callee arguments => callee.Named ∧ Expression.AllNamed arguments
  | _ => True

def Expression.AllNamed : List Expression → Prop
  | [] => True
  | first :: rest => first.Named ∧ Expression.AllNamed rest

end

/-- A statement, a declaration or a sequence of them. -/
inductive Statement where
  | empty
  | sequence (first rest : Statement)
  | expression (value : Expression)
  | print (value : Expression)
  | varDeclaration (name : String) (initial : Option Expression)
  | funDeclaration (name : String) (parameters : List String) (body : Statement)
  | block (body : Statement)
  | conditional (condition : Expression) (met unmet : Statement)
  | whileLoop (condition : Expression) (body : Statement)
  | forLoop (initial : Statement) (condition increment : Option Expression) (body : Statement)
  | breakLoop
  | continueLoop
  | returnValue (value : Option Expression)

namespace Statement

/-- The names that a statement leaves declared in the scope it stands in, the latest first. -/
def declared : Statement → List String
  | sequence first rest => rest.declared ++ first.declared
  | varDeclaration name _ => [name]
  | funDeclaration name _ _ => [name]
  | _ => []

/-- The number of functions that a statement declares, those inside of functions apart. -/
def functionCount : Statement → Nat
  | sequence first rest => first.functionCount + rest.functionCount
  | funDeclaration _ _ _ => 1
  | block body => body.functionCount
  | conditional _ met unmet => met.functionCount + unmet.functionCount
  | whileLoop _ body => body.functionCount
  | forLoop initial _ _ body => initial.functionCount + body.functionCount
  | _ => 0

/-- Whether a statement can be the first clause of a counting loop. -/
def isClause : Statement → Bool
  | empty => true
  | expression _ => true
  | varDeclaration _ _ => true
  | _ => false

/-- Whether declarations stand only where they have a scope to stand in. -/
def Placed : Statement → Prop
  | sequence first rest => first.Placed ∧ rest.Placed
  | funDeclaration _ _ body => body.Placed
  | block body => body.Placed
  | conditional _ met unmet =>
    met.Placed ∧ met.declared = [] ∧ unmet.Placed ∧ unmet.declared = []
  | whileLoop _ body => body.Placed ∧ body.declared = []
  | forLoop initial _ _ body => initial.isClause = true ∧ body.Placed ∧ body.declared = []
  | _ => True

theorem placed_of_isClause {initial : Statement} (isClause : initial.isClause = true) :
    initial.Placed := by
  cases initial <;> trivial

/-- Whether every variable in the expressions of a statement has a name with characters in it. -/
def Named : Statement → Prop
  | sequence first rest => first.Named ∧ rest.Named
  | expression value => value.Named
  | print value => value.Named
  | varDeclaration _ initial => ∀ value ∈ initial, value.Named
  | funDeclaration _ _ body => body.Named
  | block body => body.Named
  | conditional condition met unmet => condition.Named ∧ met.Named ∧ unmet.Named
  | whileLoop condition body => condition.Named ∧ body.Named
  | forLoop initial condition increment body =>
    initial.Named ∧ (∀ value ∈ condition, value.Named) ∧ (∀ value ∈ increment, value.Named) ∧
      body.Named
  | returnValue value => ∀ result ∈ value, result.Named
  | _ => True

/-- Whether a further branch behind a statement would belong to a conditional in it. -/
def isOpen : Statement → Bool
  | conditional _ _ .empty => true
  | conditional _ _ unmet => unmet.isOpen
  | whileLoop _ body => body.isOpen
  | forLoop _ _ _ body => body.isOpen
  | _ => false

end Statement

end StackScript
