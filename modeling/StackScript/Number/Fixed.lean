/-!
# Numbers in positional notation

A double is shown with a fixed number of places behind the point. The text is exact: the last place
is rounded to the nearest and a half goes to the even neighbour.
-/

namespace StackScript.Number

/-- The quotient rounded to the nearest natural number, a half to the even one. -/
def roundedQuotient (numerator denominator : Nat) : Nat :=
  let quotient := numerator / denominator
  let twice := 2 * (numerator % denominator)
  if twice < denominator then quotient
  else if denominator < twice then quotient + 1
  else quotient + quotient % 2

/-- A double taken apart. -/
inductive Decoded where
  | notANumber
  | infinite (negative : Bool)
  /-- The number `mantissa * 2 ^ exponent`, negated if so marked. -/
  | finite (negative : Bool) (mantissa : Nat) (exponent : Int)

/-- Takes the sign, the exponent field and the fraction field of a double apart. -/
def decode (x : Float) : Decoded :=
  let bits := x.toBits.toNat
  let negative := bits / Nat.pow 2 63 == 1
  let field : Nat := bits / Nat.pow 2 52 % Nat.pow 2 11
  let fraction := bits % Nat.pow 2 52
  if field = 2047 then
    if fraction = 0 then .infinite negative else .notANumber
  else if field = 0 then .finite negative fraction (-1074)
  else .finite negative (fraction + Nat.pow 2 52) ((field : Int) - 1075)

/-- The natural number nearest to `mantissa * 2 ^ exponent * 10 ^ places`. -/
def scaled (places mantissa : Nat) (exponent : Int) : Nat :=
  if 0 ≤ exponent then mantissa * Nat.pow 10 places * Nat.pow 2 exponent.toNat
  else roundedQuotient (mantissa * Nat.pow 10 places) (Nat.pow 2 (-exponent).toNat)

/-- Decimal digits with a point in front of the last `places` of them. -/
def pointed (places number : Nat) : String :=
  let behind := toString (number % Nat.pow 10 places)
  toString (number / Nat.pow 10 places) ++ "." ++
    String.ofList (List.replicate (places - behind.length) '0') ++ behind

def sign (negative : Bool) : String :=
  if negative then "-" else ""

/-- A double with that many places. -/
def fixed (places : Nat) (x : Float) : String :=
  match decode x with
  | .notANumber => "NaN"
  | .infinite negative => sign negative ++ "inf"
  | .finite negative mantissa exponent =>
    sign negative ++ pointed places (scaled places mantissa exponent)

/-- The number of places behind the point of every number that a program shows. -/
def shownPlaces : Nat := 6

/-- The text under which a program shows a number. -/
def display (x : Float) : String :=
  fixed shownPlaces x

end StackScript.Number
