/-!
# Number literals

The written form of a number is a run of digits, or two of them with a point between. It
denotes the double nearest to that decimal fraction.
-/

namespace StackScript.Number

/-- The natural number that a list of decimal digits denotes. -/
def ofDigits (digits : List Char) : Nat :=
  digits.foldl (fun value digit => 10 * value + (digit.toNat - '0'.toNat)) 0

/-- The double nearest to the decimal fraction with these digits around its point. -/
def ofDecimal (whole fraction : List Char) : Float :=
  Float.ofScientific (ofDigits (whole ++ fraction)) true fraction.length

/-- Digits, at least one. -/
def isDigits (chars : List Char) : Bool :=
  !chars.isEmpty && chars.all Char.isDigit

/-- Reads a literal; `none` if the text is not one. -/
def parse? (text : String) : Option Float :=
  let chars := text.toList
  let whole := chars.takeWhile Char.isDigit
  match chars.dropWhile Char.isDigit with
  | [] => if isDigits whole then some (ofDecimal whole []) else none
  | point :: fraction =>
    if isDigits whole && point == '.' && isDigits fraction then some (ofDecimal whole fraction)
    else none

end StackScript.Number
