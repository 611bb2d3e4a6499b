import Mathlib.Data.Finset.Card
import StackScript.Proofs.Assembly

/-!
# The rules of the language

Which programs of the grammar can be compiled, said of their trees alone. The rules for a statement
depend on its site. They are about names, about where statements may stand, and about the sizes that
an instruction or a chunk can hold.
-/

namespace StackScript

open Compile

/-! ## Constants -/

/-- The constants that code needs: its literals, and the names of its global variables. -/
structure Use where
  literals : Nat
  globals : Finset String

namespace Use

def none : Use :=
  ⟨0, ∅⟩

def literal : Use :=
  ⟨1, ∅⟩

def global (name : String) : Use :=
  ⟨0, {name}⟩

/-- What an access to a variable needs, where these names are bound to slots. -/
def access (names : List String) (name : String) : Use :=
  if name ∈ names then none else global name

instance : Add Use :=
  ⟨fun first second =>
    ⟨first.literals + second.literals, first.globals ∪ second.globals⟩⟩

/-- The number of constants; every name of a global variable counts once. -/
def count (use : Use) : Nat :=
  use.literals + use.globals.card

end Use

mutual

/-- The constants of an expression, where these names are bound to slots. -/
def Expression.use (names : List String) : Expression → Use
  | .number _ | .string _ => .literal
  | .literal _ => .none
  | .reference name => .access names name
  | .assign name value => .access names name + value.use names
  | .unary _ operand => operand.use names
  | .binary _ left right | .and left right | .or left right => left.use names + right.use names
  | .call callee arguments => callee.use names + Expression.useAll names arguments

def Expression.useAll (names : List String) : List Expression → Use
  | [] => .none
  | first :: rest => first.use names + Expression.useAll names rest

end

def Expression.useOf (names : List String) (given : Option Expression) : Use :=
  given.elim .none (Expression.use names)

/-! ## Sites -/

/-- What is known about the loop around a statement. -/
structure LoopSite where
  height : Nat
  behind : Nat

/-- What the rules for a statement depend on. -/
structure Site where
  names : List String
  scope : List String
  isOutermost : Bool
  loop : Option LoopSite
  kind : DraftKind

namespace Site

def script : Site :=
  ⟨[""], [], true, none, .script⟩

/-- The site of the body of a function, whose parameters belong to the same scope. -/
def function (name : String) (parameters : List String) : Site :=
  ⟨parameters.reverse ++ [name], parameters.reverse, false, none, .function⟩

def inScope (site : Site) : Site :=
  { site with scope := [], isOutermost := false }

/-- The site where the rounds of a loop start. -/
def inLoop (site : Site) : Site :=
  { site with loop := some ⟨site.names.length, 0⟩ }

/-- The names that get slots. -/
def binds (site : Site) (statement : Statement) : List String :=
  if site.isOutermost then [] else statement.declared

def bind (site : Site) (names : List String) : Site :=
  { site with names := names ++ site.names, scope := names ++ site.scope }

/-- The site behind a statement, its code apart. -/
def after (site : Site) (statement : Statement) : Site :=
  site.bind (site.binds statement)

def past (site : Site) (bytes : Nat) : Site :=
  { site with loop := site.loop.map fun loop => { loop with behind := loop.behind + bytes } }

/-- The number of slots that are given up where the innermost loop is left or repeated. -/
def surplus (site : Site) : Nat :=
  site.names.length - (site.loop.elim 0 (·.height))

/-- The bytes that define a name. -/
def definingSize (site : Site) : Nat :=
  if site.isOutermost then 2 else 0

def defining (site : Site) (name : String) : Use :=
  if site.isOutermost then .global name else .none

/--
Whether a variable can be declared: as a global variable, or as a local that has its name for itself
in its scope and for which there is a slot.
-/
def Admits (site : Site) (name : String) : Prop :=
  site.isOutermost = true ∨ name ∉ site.scope ∧ site.names.length < maxLocals

end Site

namespace Statement

/-! ## Sizes -/

def initialSize (initial : Option Expression) : Nat :=
  initial.elim 1 Expression.size

def conditionSize (condition : Option Expression) : Nat :=
  condition.elim 0 (·.size + 4)

def incrementSize (increment : Option Expression) : Nat :=
  increment.elim 0 (·.size + 7)

def roundSize (condition increment : Option Expression) : Nat :=
  increment.elim (conditionSize condition) (·.size + 4)

def exitSize (condition : Option Expression) : Nat :=
  condition.elim 0 fun _ => 1

def resultSize (value : Option Expression) : Nat :=
  value.elim 2 (·.size + 1)

/-- The bytes of a statement. -/
def size : Statement → Site → Nat
  | empty, _ => 0
  | sequence first rest, site => first.size site + rest.size (site.after first)
  | expression value, _ | print value, _ => value.size + 1
  | varDeclaration _ initial, site => initialSize initial + site.definingSize
  | funDeclaration _ _ _, site => 2 + site.definingSize
  | block body, site => body.size site.inScope + body.declared.length
  | conditional condition met unmet, site =>
    condition.size + 4 + met.size site + 4 + unmet.size site
  | whileLoop condition body, site => condition.size + 4 + body.size site.inScope.inLoop + 4
  | forLoop initial condition increment body, site =>
    initial.size site.inScope + conditionSize condition + incrementSize increment +
      body.size (site.inScope.after initial).inLoop + 3 + exitSize condition +
      initial.declared.length
  | breakLoop, site | continueLoop, site => site.surplus + 3
  | returnValue value, _ => resultSize value

/--
The distances of the jumps that leave the loop around a statement, which ends that many bytes behind
the statement, the latest first.
-/
def exits : Statement → Site → Nat → List Nat
  | sequence first rest, site, ahead =>
    rest.exits (site.after first) ahead ++ first.exits site (rest.size (site.after first) + ahead)
  | block body, site, ahead => body.exits site.inScope (body.declared.length + ahead)
  | conditional _ met unmet, site, ahead =>
    unmet.exits site ahead ++ met.exits site (4 + unmet.size site + ahead)
  | breakLoop, _, ahead => [ahead]
  | _, _, _ => []

/-! ## Rules -/

/-- Whether a statement breaks no rule; the number of constants is counted apart. -/
def Lawful : Statement → Site → Prop
  | empty, _ => True
  | sequence first rest, site =>
    first.Lawful site ∧ rest.Lawful ((site.after first).past (first.size site))
  | expression value, _ | print value, _ => value.Small
  | varDeclaration name initial, site =>
    site.Admits name ∧ ∀ value ∈ initial, value.Small ∧
      (site.isOutermost = false → name ∉ value.identifiers)
  | funDeclaration name parameters body, site =>
    site.Admits name ∧ parameters.length ≤ maxArguments ∧ parameters.Nodup ∧
      body.Lawful (.function name parameters)
  | block body, site => body.Lawful site.inScope
  | conditional condition met unmet, site =>
    condition.Small ∧ met.Lawful (site.past (condition.size + 4)) ∧
      met.size site + 4 ≤ maxDistance ∧
      unmet.Lawful (site.past (condition.size + 4 + met.size site + 4)) ∧
      unmet.size site + 1 ≤ maxDistance
  | whileLoop condition body, site =>
    condition.Small ∧ body.Lawful (site.inScope.inLoop.past (condition.size + 4)) ∧
      condition.size + 4 + body.size site.inScope.inLoop + 3 ≤ maxDistance ∧
      body.size site.inScope.inLoop + 4 ≤ maxDistance ∧
      ∀ distance ∈ body.exits site.inScope.inLoop 4, distance ≤ maxDistance
  | forLoop initial condition increment body, site =>
    let inside := (site.inScope.after initial).inLoop
    initial.Lawful site.inScope ∧ (∀ value ∈ condition, value.Small) ∧
      (∀ value ∈ increment, value.Small ∧
        conditionSize condition + value.size + 7 ≤ maxDistance ∧ value.size + 4 ≤ maxDistance) ∧
      body.Lawful (inside.past (roundSize condition increment)) ∧
      roundSize condition increment + body.size inside + 3 ≤ maxDistance ∧
      (condition.isSome = true →
        1 + incrementSize increment + body.size inside + 3 ≤ maxDistance) ∧
      ∀ distance ∈ body.exits inside (3 + exitSize condition), distance ≤ maxDistance
  | breakLoop, site => site.loop.isSome = true
  | continueLoop, site =>
    ∃ loop, site.loop = some loop ∧ loop.behind + site.surplus + 3 ≤ maxDistance
  | returnValue value, site => site.kind = .function ∧ ∀ result ∈ value, result.Small

/-- The constants of a statement. -/
def use : Statement → Site → Use
  | sequence first rest, site => first.use site + rest.use (site.after first)
  | expression value, site | print value, site => value.use site.names
  | varDeclaration name initial, site =>
    site.defining name + Expression.useOf site.names initial
  | funDeclaration name _ _, site => site.defining name + .literal
  | block body, site => body.use site.inScope
  | conditional condition met unmet, site =>
    condition.use site.names + met.use site + unmet.use site
  | whileLoop condition body, site => condition.use site.names + body.use site.inScope.inLoop
  | forLoop initial condition increment body, site =>
    let begun := site.inScope.after initial
    initial.use site.inScope + Expression.useOf begun.names condition +
      Expression.useOf begun.names increment + body.use begun.inLoop
  | returnValue value, site => Expression.useOf site.names value
  | _, _ => .none

/-- Whether no function inside of a statement needs more constants than a chunk can hold. -/
def FunctionsFit : Statement → Prop
  | sequence first rest => first.FunctionsFit ∧ rest.FunctionsFit
  | funDeclaration name parameters body =>
    (body.use (.function name parameters)).count ≤ Chunk.maxConstants ∧ body.FunctionsFit
  | block body => body.FunctionsFit
  | conditional _ met unmet => met.FunctionsFit ∧ unmet.FunctionsFit
  | whileLoop _ body => body.FunctionsFit
  | forLoop _ _ _ body => body.FunctionsFit
  | _ => True

end Statement

end StackScript
