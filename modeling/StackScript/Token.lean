/-!
# Tokens

A token is a stretch of the program text with a kind. It carries its characters, the byte at which
it starts and the line of that byte.
-/

namespace StackScript

/-- The words that are not free to be used as names. -/
inductive Keyword where
  | andKw
  | breakKw
  | classKw
  | continueKw
  | elifKw
  | elseKw
  | falseKw
  | forKw
  | funKw
  | ifKw
  | nilKw
  | orKw
  | printKw
  | returnKw
  | superKw
  | thisKw
  | trueKw
  | varKw
  | whileKw
deriving DecidableEq, Repr

namespace Keyword

/-- The word itself. -/
def spelling : Keyword → String
  | andKw => "and"
  | breakKw => "break"
  | classKw => "class"
  | continueKw => "continue"
  | elifKw => "elif"
  | elseKw => "else"
  | falseKw => "false"
  | forKw => "for"
  | funKw => "fun"
  | ifKw => "if"
  | nilKw => "nil"
  | orKw => "or"
  | printKw => "print"
  | returnKw => "return"
  | superKw => "super"
  | thisKw => "this"
  | trueKw => "true"
  | varKw => "var"
  | whileKw => "while"

def all : List Keyword :=
  [andKw, breakKw, classKw, continueKw, elifKw, elseKw, falseKw, forKw, funKw, ifKw, nilKw,
    orKw, printKw, returnKw, superKw, thisKw, trueKw, varKw, whileKw]

/-- The keyword with this spelling, if there is one. -/
def ofWord? (word : String) : Option Keyword :=
  all.find? fun keyword => keyword.spelling == word

@[simp] theorem ofWord?_spelling (keyword : Keyword) : ofWord? keyword.spelling = some keyword := by
  cases keyword <;> decide

/-- A word is read as a keyword exactly if it is that keyword's spelling. -/
theorem ofWord?_eq_some_iff {word : String} {keyword : Keyword} :
    ofWord? word = some keyword ↔ keyword.spelling = word := by
  constructor
  · intro found
    simpa using List.find?_some found
  · rintro rfl
    exact ofWord?_spelling keyword

end Keyword

/-- Why a stretch of text is no token of the language. -/
inductive ScanError where
  | unexpectedCharacter
  | unterminatedString
deriving DecidableEq, Repr

/-- What a token is. Errors are tokens too, so that scanning never stops early. -/
inductive Token.Kind where
  | leftParen
  | rightParen
  | leftBrace
  | rightBrace
  | comma
  | dot
  | minus
  | plus
  | semicolon
  | slash
  | star
  | bang
  | bangEqual
  | equal
  | equalEqual
  | greater
  | greaterEqual
  | less
  | lessEqual
  | identifier
  | string
  | number
  | keyword (word : Keyword)
  | error (reason : ScanError)
  | endOfText
deriving DecidableEq, Repr

/-- A token with its characters, its first byte and the line of that byte. -/
structure Token where
  kind : Token.Kind
  lexeme : String
  start : Nat
  line : Nat
deriving DecidableEq, Repr

namespace Token

def length (token : Token) : Nat :=
  token.lexeme.utf8ByteSize

/-- The token at the end of a text; it covers nothing. -/
def atEnd (start line : Nat) : Token :=
  ⟨.endOfText, "", start, line⟩

/-- What a reader holds before it has read its first token. -/
def unread : Token :=
  atEnd 0 1

end Token

end StackScript
