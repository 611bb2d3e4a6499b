import StackScript.Opcode
import StackScript.Token

/-!
# Precedence of operators

For every kind of token: whether an expression can start with it, whether it can continue one, and
how tightly it then binds.
-/

namespace StackScript

/-- How tightly an operator binds, from loosest to tightest. -/
inductive Precedence where
  /-- Not an operator. -/
  | none
  | assignment
  | or
  | and
  | equality
  | comparison
  | term
  | factor
  | unary
  | call
  | primary
deriving DecidableEq, Repr

namespace Precedence

def rank : Precedence → Nat
  | none => 0
  | assignment => 1
  | or => 2
  | and => 3
  | equality => 4
  | comparison => 5
  | term => 6
  | factor => 7
  | unary => 8
  | call => 9
  | primary => 10

instance : LE Precedence where
  le left right := left.rank ≤ right.rank

instance (left right : Precedence) : Decidable (left ≤ right) :=
  inferInstanceAs (Decidable (left.rank ≤ right.rank))

/-- The next tighter precedence; nothing is tighter than a primary expression. -/
def tighter : Precedence → Precedence
  | none => assignment
  | assignment => or
  | or => and
  | and => equality
  | equality => comparison
  | comparison => term
  | term => factor
  | factor => unary
  | unary => call
  | call => primary
  | primary => primary

end Precedence

inductive UnaryOperator where
  | negate
  | not
deriving DecidableEq, Repr

/-- The operation of an operator. -/
def UnaryOperator.opcode : UnaryOperator → Opcode
  | negate => .negate
  | not => .logicalNot

/-- The operators with two operands, of which both are always evaluated. -/
inductive BinaryOperator where
  | add
  | subtract
  | multiply
  | divide
  | equal
  | notEqual
  | greater
  | greaterEqual
  | less
  | lessEqual
deriving DecidableEq, Repr

namespace BinaryOperator

/-- The operations that compute a binary operator. Half of the comparisons are negations. -/
def opcodes : BinaryOperator → List Opcode
  | add => [.add]
  | subtract => [.subtract]
  | multiply => [.multiply]
  | divide => [.divide]
  | equal => [.equal]
  | notEqual => [.equal, .logicalNot]
  | greater => [.greater]
  | greaterEqual => [.less, .logicalNot]
  | less => [.less]
  | lessEqual => [.greater, .logicalNot]

/-- How tightly an operator binds. -/
def precedence : BinaryOperator → Precedence
  | add | subtract => .term
  | multiply | divide => .factor
  | equal | notEqual => .equality
  | greater | greaterEqual | less | lessEqual => .comparison

end BinaryOperator

/-- The data that have a keyword of their own. -/
inductive KeywordLiteral where
  | nil
  | true
  | false
deriving DecidableEq, Repr

/-- The operation that loads a literal. -/
def KeywordLiteral.opcode : KeywordLiteral → Opcode
  | nil => .loadNil
  | true => .loadTrue
  | false => .loadFalse

/-- What an expression can start with. -/
inductive Leading where
  | grouping
  | unary (operator : UnaryOperator)
  | variable
  | string
  | number
  | literal (value : KeywordLiteral)
deriving DecidableEq, Repr

/-- What an expression can go on with. -/
inductive Trailing where
  | call
  | binary (operator : BinaryOperator)
  | and
  | or
deriving DecidableEq, Repr

/-- How tightly the continuation of an expression binds. -/
def Trailing.precedence : Trailing → Precedence
  | call => .call
  | binary operator => operator.precedence
  | and => .and
  | or => .or

namespace Token.Kind

/-- What an expression that starts with this kind of token starts with. -/
def leading? : Token.Kind → Option Leading
  | leftParen => some .grouping
  | minus => some (.unary .negate)
  | bang => some (.unary .not)
  | identifier => some .variable
  | string => some .string
  | number => some .number
  | keyword .nilKw => some (.literal .nil)
  | keyword .trueKw => some (.literal .true)
  | keyword .falseKw => some (.literal .false)
  | _ => none

/-- What an expression that goes on with this kind of token goes on with. -/
def trailing? : Token.Kind → Option Trailing
  | leftParen => some .call
  | minus => some (.binary .subtract)
  | plus => some (.binary .add)
  | slash => some (.binary .divide)
  | star => some (.binary .multiply)
  | bangEqual => some (.binary .notEqual)
  | equalEqual => some (.binary .equal)
  | greater => some (.binary .greater)
  | greaterEqual => some (.binary .greaterEqual)
  | less => some (.binary .less)
  | lessEqual => some (.binary .lessEqual)
  | keyword .andKw => some .and
  | keyword .orKw => some .or
  | _ => none

def precedence (kind : Token.Kind) : Precedence :=
  match kind.trailing? with
  | some trailing => trailing.precedence
  | none => .none

end Token.Kind

end StackScript
