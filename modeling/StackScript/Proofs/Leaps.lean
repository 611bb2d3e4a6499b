import StackScript.Proofs.Extent
import StackScript.Proofs.Inventory
import StackScript.Proofs.Scoping

/-!
# Leaving and repeating loops

Where every `break` and every `continue` of a program stands in its code, and where its jump leads,
said of the tree alone. To leave a loop or to start its next round gives up the locals of the scopes
inside of the loop; its own locals are given up behind it. The next round starts with the increment,
or else with the condition, or else with the body.
-/

namespace StackScript

/-! ## Sites -/

namespace Scoping

/-- The names that are bound to slots, the one of the highest slot first. -/
def names (scoping : Scoping) : List String :=
  scoping.locals.map (·.name) ++ [scoping.own.getD ""]

/-- The locals of the innermost scope. -/
def latest (scoping : Scoping) : List OpenLocal :=
  scoping.scopes.headD []

/-- The locals of the scopes inside of the scope at a depth; the outermost scope has depth one. -/
def deeper (scoping : Scoping) (depth : Nat) : List OpenLocal :=
  (scoping.scopes.take (scoping.scopes.length - depth)).flatten

/-- The site of a statement, with the number of slots in use around the loop that it stands in. -/
def site (scoping : Scoping) (height : Option Nat) : Site where
  names := scoping.names
  scope := scoping.latest.map (·.name)
  isOutermost := scoping.scopes.isEmpty
  loop := height.map (⟨·, 0⟩)
  kind := if scoping.own.isSome then .function else .script

variable (scoping : Scoping) (height : Option Nat)

theorem length_names : scoping.names.length = scoping.locals.length + 1 := by
  simp [names]

theorem Fits.measures {scoping : Scoping} {layout : Layout} {height : Option Nat}
    (fits : scoping.Fits layout) (heightEq : layout.loop.map (·.height) = height) :
    (scoping.site height).Measures layout where
  names_eq := fits.names_eq
  outermost_eq := fits.isOutermost_eq
  height_eq := by
    rw [heightEq, site, Option.map_map]
    exact Option.map_id'.symm

theorem site_declare (name : String) :
    (scoping.declare name).site height =
      (scoping.site height).bind (if scoping.scopes.isEmpty then [] else [name]) := by
  rcases scoping with ⟨own, _ | ⟨scope, outer⟩⟩ <;> rfl

theorem site_opens (statement : Statement) :
    (statement.opens scoping).site height = (scoping.site height).after statement := by
  induction statement generalizing scoping with
  | sequence first rest ihFirst ihRest =>
    rw [Statement.opens, ihRest, ihFirst]
    by_cases outermost : (scoping.site height).isOutermost = true <;>
      simp [Site.after, Site.binds, Site.bind, Statement.declared, outermost]
  | varDeclaration name initial => exact scoping.site_declare height name
  | funDeclaration name parameters body _ => exact scoping.site_declare height name
  | _ =>
    simp [Statement.opens, Site.after, Site.binds, Site.bind, Statement.declared]

end Scoping

/-! ## Loops and leaps -/

/-- A loop of a program, with where its code stands. -/
structure PlacedLoop where
  /-- What can be seen where its body starts; the innermost scope is the one of the loop. -/
  scoping : Scoping
  condition : Option Expression
  increment : Option Expression
  body : Statement
  test : Nat

namespace PlacedLoop

variable (loop : PlacedLoop)

def height : Nat :=
  loop.scoping.names.length

/-- The number of scopes that are open in the loop, its own one included. -/
def depth : Nat :=
  loop.scoping.scopes.length

def tested : Nat :=
  loop.test + Statement.conditionSize loop.condition

def entry : Nat :=
  loop.tested + Statement.incrementSize loop.increment

def last : Nat :=
  loop.entry + loop.body.size (loop.scoping.site (some loop.height))

/-- The offset behind the loop, where the locals of its own scope are given up. -/
def exit : Nat :=
  loop.last + 3 + Statement.exitSize loop.condition

/-- Where the next round starts. -/
def again : Nat :=
  match loop.increment, loop.condition with
  | some _, _ => loop.tested + 3
  | none, some _ => loop.test
  | none, none => loop.entry

/-- Whether the code of a loop stands where the loop says. -/
structure StandsIn (chunk : Chunk Constant) : Prop where
  condition : Statement.ConditionAt chunk loop.scoping.names loop.condition loop.test loop.tested
    (loop.last + 3)
  increment : Statement.IncrementAt chunk loop.scoping.names loop.test loop.increment loop.tested
    loop.entry loop.again
  body : ∃ layout marks, loop.body.CodeAt chunk layout loop.entry loop.last marks
  repeats : chunk.LoopsTo loop.last loop.again
  exits : Statement.ExitAt chunk loop.condition (loop.last + 3) loop.exit
  discards : Statement.PopsAt chunk loop.scoping.latest.length loop.exit
    (loop.exit + loop.scoping.latest.length)

end PlacedLoop

/-- A `break` or a `continue`, with where its code starts. -/
structure Leap where
  isBreak : Bool
  scoping : Scoping
  loop : Option PlacedLoop
  offset : Nat

/--
Whether a leap stands in a loop and has the code that it should have: it gives up the locals of the
scopes inside of the one of the loop, and then jumps.
-/
def Leap.StandsIn (leap : Leap) (chunk : Chunk Constant) : Prop :=
  ∃ loop, leap.loop = some loop ∧ loop.StandsIn chunk ∧
    ∃ popped, popped = leap.offset + (leap.scoping.deeper loop.depth).length ∧
      Statement.PopsAt chunk (leap.scoping.deeper loop.depth).length leap.offset popped ∧
      if leap.isBreak then chunk.Jumps .jump popped loop.exit
      else chunk.LoopsTo popped loop.again

namespace Statement

/-- The leaps in a statement that starts at an offset, those inside of functions apart. -/
def leaps : Statement → Scoping → Option PlacedLoop → Nat → List Leap
  | sequence first rest, scoping, loop, start =>
    first.leaps scoping loop start ++ rest.leaps (first.opens scoping) loop
      (start + first.size (scoping.site (loop.map (·.height))))
  | block body, scoping, loop, start => body.leaps scoping.enter loop start
  | conditional condition met unmet, scoping, loop, start =>
    let chosen := start + condition.size + 4 + met.size (scoping.site (loop.map (·.height)))
    met.leaps scoping loop (start + condition.size + 4) ++ unmet.leaps scoping loop (chosen + 4)
  | whileLoop condition body, scoping, _, start =>
    let inner : PlacedLoop := ⟨scoping.enter, some condition, none, body, start⟩
    body.leaps scoping.enter inner inner.entry
  | forLoop initial condition increment body, scoping, loop, start =>
    let test := start + initial.size (scoping.enter.site (loop.map (·.height)))
    let inner : PlacedLoop := ⟨initial.opens scoping.enter, condition, increment, body, test⟩
    body.leaps (initial.opens scoping.enter) inner inner.entry
  | breakLoop, scoping, loop, start => [⟨true, scoping, loop, start⟩]
  | continueLoop, scoping, loop, start => [⟨false, scoping, loop, start⟩]
  | _, _, _, _ => []

end Statement

namespace Declaration

/-- The leaps of a function, those of functions inside of it apart. -/
def leaps (declaration : Declaration) : List Leap :=
  declaration.body.leaps declaration.entry none 0

/-- The function that is declared at a place inside of others, the places from the outside in. -/
def at? (declaration : Declaration) : List Nat → Option Declaration
  | [] => some declaration
  | place :: path => declaration.body.functions[place]?.bind (·.at? path)

end Declaration

/-- The function at a place in the pools of others, the places from the outside in. -/
def Function.at? (function : Function) : List Nat → Option Function
  | [] => some function
  | place :: path => function.chunk.functions[place]?.bind (·.at? path)

/-! ## Leaps in code -/

namespace Statement

variable {scoping : Scoping}

theorem opens_of_declared_nil {statement : Statement} (none : statement.declared = []) :
    statement.opens scoping = scoping := by
  induction statement with
  | sequence first rest ihFirst ihRest =>
    rcases List.append_eq_nil_iff.mp none with ⟨restNone, firstNone⟩
    rw [opens, ihFirst firstNone, ihRest restNone]
  | varDeclaration name initial => cases none
  | funDeclaration name parameters body _ => cases none
  | _ => rfl

theorem tail_opens (statement : Statement) :
    (statement.opens scoping).scopes.tail = scoping.scopes.tail := by
  have declares (name : String) (scoping : Scoping) :
      (scoping.declare name).scopes.tail = scoping.scopes.tail := by
    rcases scoping with ⟨own, _ | ⟨scope, outer⟩⟩ <;> rfl
  induction statement generalizing scoping with
  | sequence first rest ihFirst ihRest => rw [opens, ihRest, ihFirst]
  | varDeclaration name initial => exact declares name scoping
  | funDeclaration name parameters body _ => exact declares name scoping
  | _ => rfl

theorem length_latest_opens (statement : Statement) :
    (statement.opens scoping.enter).latest.length = statement.declared.length := by
  have scopeEq := congrArg Site.scope (scoping.enter.site_opens none statement)
  have lengthEq := congrArg List.length scopeEq
  rw [show (statement.opens scoping.enter).latest.length =
    ((statement.opens scoping.enter).latest.map (·.name)).length by rw [List.length_map]]
  rw [show ((scoping.enter.site none).after statement).scope = statement.declared ++ [] from rfl,
    List.append_nil] at lengthEq
  exact lengthEq

end Statement

/-- What a layout says of a loop. -/
def PlacedLoop.place (loop : PlacedLoop) : LoopPlace :=
  ⟨loop.height, loop.again, loop.exit⟩

/-- Whether a layout is the one of a point in a loop, and the loop stands in the code. -/
structure Scoping.Around (chunk : Chunk Constant) (scoping : Scoping) (layout : Layout)
    (loop : Option PlacedLoop) : Prop where
  fits : scoping.Fits layout
  loop_eq : layout.loop = loop.map (·.place)
  stands : ∀ inner ∈ loop, inner.StandsIn chunk
  inside : ∀ inner ∈ loop, inner.scoping.scopes <:+ scoping.scopes

namespace Scoping.Around

variable {chunk : Chunk Constant} {scoping : Scoping} {layout : Layout} {loop : Option PlacedLoop}

theorem measures (around : Around chunk scoping layout loop) :
    (scoping.site (loop.map (·.height))).Measures layout := by
  apply around.fits.measures
  rw [around.loop_eq, Option.map_map]
  rfl

theorem enter (around : Around chunk scoping layout loop) :
    Around chunk scoping.enter layout.inScope loop where
  fits := around.fits.enter
  loop_eq := around.loop_eq
  stands := around.stands
  inside inner present := (around.inside inner present).trans (List.suffix_cons [] scoping.scopes)

theorem opens {statement : Statement} (around : Around chunk scoping layout loop)
    (apart : ∀ inner ∈ loop,
      inner.scoping.scopes <:+ scoping.scopes.tail ∨ statement.declared = []) :
    Around chunk (statement.opens scoping) (layout.after statement) loop where
  fits := around.fits.opens statement
  loop_eq := around.loop_eq
  stands := around.stands
  inside inner present := by
    rcases apart inner present with deeper | none
    · rw [← statement.tail_opens] at deeper
      exact deeper.trans (List.tail_suffix _)
    · rw [Statement.opens_of_declared_nil none]
      exact around.inside inner present

theorem length_deeper {inner : PlacedLoop} (around : Around chunk scoping layout (some inner)) :
    (scoping.deeper inner.depth).length = layout.names.length - inner.height := by
  rcases around.inside inner rfl with ⟨front, scopesEq⟩
  have deeperEq : scoping.deeper inner.depth = front.flatten := by
    simp [deeper, PlacedLoop.depth, ← scopesEq]
  have localsEq : scoping.locals = front.flatten ++ inner.scoping.locals := by
    rw [locals, locals, ← scopesEq, List.flatten_append]
  rw [around.fits.names_eq, ← names, PlacedLoop.height, length_names, length_names, localsEq,
    deeperEq, List.length_append]
  omega

end Scoping.Around

namespace Statement

variable {chunk : Chunk Constant} {layout : Layout} {scoping : Scoping} {loop : Option PlacedLoop}
  {start stop : Nat} {marks : List (Nat × Nat)} {condition : Expression} {body : Statement}

theorem IncrementAt.again_eq {names : List String} {loop : PlacedLoop} {again : Nat}
    (code : IncrementAt chunk names loop.test loop.increment loop.tested loop.entry again) :
    again = loop.again := by
  rcases loop with ⟨scoping, condition, _ | increment, body, test⟩
  · cases condition with
    | none => exact code.2.trans code.1.symm
    | some value => exact code.2
  · rcases code with ⟨_, _, _, _, _, _, againEq⟩
    exact againEq

theorem exists_around_forLoop {initial : Statement} (inner : PlacedLoop)
    (placed : (forLoop initial inner.condition inner.increment inner.body).Placed)
    (code : (forLoop initial inner.condition inner.increment inner.body).CodeAt chunk layout start
      stop marks)
    (around : scoping.Around chunk layout loop)
    (scopingEq : inner.scoping = initial.opens scoping.enter)
    (startEq : inner.test = start + initial.size (scoping.enter.site (loop.map (·.height)))) :
    ∃ layoutInside marksInside, inner.scoping.Around chunk layoutInside (some inner) ∧
      inner.body.CodeAt chunk layoutInside inner.entry inner.last marksInside := by
  rcases code with ⟨test, advance, entry, done, exit, again, _, marksInside, codeInitial,
    codeCondition, codeIncrement, codeBody, loops, codeExit, pops, _⟩
  rcases placed with ⟨isClause, placedBody, _⟩
  have fits := around.fits.enter.opens initial
  have discarded : initial.declared.length = inner.scoping.latest.length := by
    rw [scopingEq, length_latest_opens]
  rw [← scopingEq] at fits
  have fitsInside : inner.scoping.Fits ((layout.inScope.after initial).inLoop again exit) :=
    fits.congr rfl rfl
  have heightEq : (layout.inScope.after initial).names.length = inner.height :=
    congrArg List.length fits.names_eq
  rw [discarded] at pops
  rw [fits.names_eq] at codeCondition codeIncrement
  have testEq : test = inner.test := startEq ▸ initial.stop_eq (placed_of_isClause isClause)
    codeInitial around.enter.measures
  subst testEq
  have advanceEq : advance = inner.tested := codeCondition.stop_eq
  subst advanceEq
  have entryEq : entry = inner.entry := codeIncrement.stop_eq
  subst entryEq
  have doneEq : done = inner.last :=
    inner.body.stop_eq placedBody codeBody (fitsInside.measures (congrArg some heightEq))
  subst doneEq
  have exitEq : exit = inner.exit := codeExit.stop_eq
  subst exitEq
  have againEq : again = inner.again := codeIncrement.again_eq
  subst againEq
  cases PopsAt.stop_eq pops
  refine ⟨_, marksInside, ⟨fitsInside, ?_, ?_, ?_⟩, codeBody⟩
  · rw [Layout.inLoop, heightEq]
    rfl
  · rintro _ ⟨⟩
    exact ⟨codeCondition, codeIncrement, ⟨_, _, codeBody⟩, loops, codeExit, pops⟩
  · rintro _ ⟨⟩
    exact List.suffix_refl _

theorem standsIn_leap {isBreak : Bool} {place : LoopPlace} {popped : Nat}
    (around : scoping.Around chunk layout loop) (placeEq : layout.loop = some place)
    (pops : PopsAt chunk (layout.names.length - place.height) start popped)
    (jumps : if isBreak then chunk.Jumps .jump popped place.exit
      else chunk.LoopsTo popped place.start) :
    (Leap.mk isBreak scoping loop start).StandsIn chunk := by
  rw [around.loop_eq] at placeEq
  rcases Option.map_eq_some_iff.mp placeEq with ⟨inner, rfl, rfl⟩
  have count : layout.names.length - inner.place.height = (scoping.deeper inner.depth).length :=
    around.length_deeper.symm
  rw [count] at pops
  exact ⟨inner, rfl, around.stands inner rfl, popped, PopsAt.stop_eq pops, pops, jumps⟩

theorem leaps_stand (statement : Statement) (placed : statement.Placed)
    (code : statement.CodeAt chunk layout start stop marks)
    (around : scoping.Around chunk layout loop)
    (apart : ∀ inner ∈ loop,
      inner.scoping.scopes <:+ scoping.scopes.tail ∨ statement.declared = []) :
    ∀ leap ∈ statement.leaps scoping loop start, leap.StandsIn chunk := by
  induction statement generalizing layout scoping loop start stop marks with
  | sequence first rest ihFirst ihRest =>
    rcases code with ⟨middle, _, _, codeFirst, codeRest, _⟩
    have middleEq := first.stop_eq placed.1 codeFirst around.measures
    subst middleEq
    have apartFirst : ∀ inner ∈ loop,
        inner.scoping.scopes <:+ scoping.scopes.tail ∨ first.declared = [] := fun inner present =>
      (apart inner present).imp_right fun none => (List.append_eq_nil_iff.mp none).2
    have apartRest : ∀ inner ∈ loop,
        inner.scoping.scopes <:+ (first.opens scoping).scopes.tail ∨ rest.declared = [] := by
      intro inner present
      rw [first.tail_opens]
      exact (apart inner present).imp_right fun none => (List.append_eq_nil_iff.mp none).1
    intro leap present
    rcases List.mem_append.mp present with inFirst | inRest
    · exact ihFirst placed.1 codeFirst around apartFirst leap inFirst
    · exact ihRest placed.2 codeRest (around.opens apartFirst) apartRest leap inRest
  | block body ih =>
    rcases code with ⟨done, _, codeBody, _⟩
    exact ih placed codeBody around.enter fun inner present => .inl (around.inside inner present)
  | conditional condition met unmet ihMet ihUnmet =>
    rcases code with ⟨tested, chosen, _, _, codeCondition, _, _, codeMet, _, _, codeUnmet, _⟩
    rcases placed with ⟨placedMet, metDeclares, placedUnmet, unmetDeclares⟩
    cases condition.stop_eq codeCondition
    cases met.stop_eq placedMet codeMet around.measures
    have aroundUnmet := around.opens fun _ _ => .inr metDeclares
    rw [opens_of_declared_nil metDeclares] at aroundUnmet
    intro leap present
    rcases List.mem_append.mp present with inMet | inUnmet
    · exact ihMet placedMet codeMet around (fun _ _ => .inr metDeclares) leap inMet
    · exact ihUnmet placedUnmet codeUnmet aroundUnmet (fun _ _ => .inr unmetDeclares) leap inUnmet
  | whileLoop condition body ih =>
    rcases exists_around_forLoop ⟨scoping.enter, some condition, none, body, start⟩
      ⟨rfl, placed⟩ (codeAt_whileLoop.mp code) around rfl rfl with ⟨_, _, aroundBody, codeBody⟩
    exact ih placed.1 codeBody aroundBody fun _ _ => .inr placed.2
  | forLoop initial condition increment body ihInitial ihBody =>
    rcases exists_around_forLoop ⟨_, condition, increment, body, _⟩ placed code around rfl
      rfl with ⟨_, _, aroundBody, codeBody⟩
    exact ihBody placed.2.1 codeBody aroundBody fun _ _ => .inr placed.2.2
  | breakLoop =>
    rcases code with ⟨place, popped, inLoop, _, pops, jumps, _⟩
    intro leap present
    cases List.mem_singleton.mp present
    exact standsIn_leap around inLoop pops jumps
  | continueLoop =>
    rcases code with ⟨place, popped, inLoop, _, pops, loops, _⟩
    intro leap present
    cases List.mem_singleton.mp present
    exact standsIn_leap around inLoop pops loops
  | _ =>
    intro leap present
    cases present

/-! ## Functions -/

theorem length_functions (statement : Statement) :
    statement.functions.length = statement.functionCount := by
  induction statement with
  | sequence first rest ihFirst ihRest =>
    rw [functions, functionCount, List.length_append, ihFirst, ihRest]
  | conditional condition met unmet ihMet ihUnmet =>
    rw [functions, functionCount, List.length_append, ihMet, ihUnmet]
  | forLoop initial condition increment body ihInitial ihBody =>
    rw [functions, functionCount, List.length_append, ihInitial, ihBody]
  | block body ih => exact ih
  | whileLoop condition body ih => exact ih
  | _ => rfl

end Statement

/-- Whether a function is the code of a declaration. -/
structure Function.Implements (function : Function) (declaration : Declaration) : Prop where
  name_eq : function.name = declaration.name.getD Function.scriptName
  arity_eq : function.arity = declaration.parameters.length
  placed : declaration.body.Placed
  code : ∃ layout done marks, declaration.entry.Fits layout ∧ layout.loop = none ∧
    layout.functions = 0 ∧ declaration.body.CodeAt function.chunk layout 0 done marks

/-- Whether a pool holds the functions that were declared, behind that many others. -/
def Chunk.Pools (chunk : Chunk Constant) (declarations : List Declaration) (before : Nat) : Prop :=
  ∀ place declaration, declarations[place]? = some declaration →
    ∃ function, chunk.functions[before + place]? = some function ∧ function.Implements declaration

theorem Chunk.Pools.append {chunk : Chunk Constant} {front back : List Declaration} {before : Nat}
    (first : chunk.Pools front before) (second : chunk.Pools back (before + front.length)) :
    chunk.Pools (front ++ back) before := by
  intro place declaration declared
  by_cases inFront : place < front.length
  · rw [List.getElem?_append_left inFront] at declared
    exact first place declaration declared
  · have behind := Nat.le_of_not_lt inFront
    rw [List.getElem?_append_right behind] at declared
    rcases second _ declaration declared with ⟨function, held, implements⟩
    rw [Nat.add_assoc, Nat.add_sub_cancel' behind] at held
    exact ⟨function, held, implements⟩

namespace Statement

variable {chunk : Chunk Constant} {layout : Layout} {start stop : Nat} {marks : List (Nat × Nat)}

theorem pools_append {first second : Statement} {before : Nat}
    (poolsFirst : chunk.Pools first.functions before)
    (poolsSecond : chunk.Pools second.functions (before + first.functionCount)) :
    chunk.Pools (first.functions ++ second.functions) before := by
  rw [← first.length_functions] at poolsSecond
  exact poolsFirst.append poolsSecond

theorem pools (statement : Statement) (placed : statement.Placed)
    (code : statement.CodeAt chunk layout start stop marks) :
    chunk.Pools statement.functions layout.functions := by
  induction statement generalizing layout start stop marks with
  | sequence first rest ihFirst ihRest =>
    rcases code with ⟨middle, _, _, codeFirst, codeRest, _⟩
    exact pools_append (ihFirst placed.1 codeFirst) (ihRest placed.2 codeRest)
  | funDeclaration name parameters body _ =>
    rcases code with ⟨place, function, done, marksInside, _, held, rankEq, nameEq, arityEq,
      codeBody, _⟩
    have implements : function.Implements ⟨some name, parameters, body⟩ :=
      ⟨nameEq, arityEq, placed, _, done, marksInside,
        Declaration.fits_function name parameters body, rfl, rfl, codeBody⟩
    intro index declaration declared
    rw [functions, List.getElem?_singleton] at declared
    split at declared
    · next first =>
      cases declared
      rw [first, ← rankEq]
      exact ⟨function, Chunk.getElem?_functions held, implements⟩
    · cases declared
  | block body ih =>
    rcases code with ⟨done, _, codeBody, _⟩
    have inside := ih placed codeBody
    exact inside
  | conditional condition met unmet ihMet ihUnmet =>
    rcases code with ⟨_, _, _, _, _, _, _, codeMet, _, _, codeUnmet, _⟩
    rcases placed with ⟨placedMet, _, placedUnmet, _⟩
    exact pools_append (ihMet placedMet codeMet) (ihUnmet placedUnmet codeUnmet)
  | whileLoop condition body ih =>
    rcases code with ⟨_, _, _, _, _, _, codeBody, _⟩
    have inside := ih placed.1 codeBody
    exact inside
  | forLoop initial condition increment body ihInitial ihBody =>
    rcases code with ⟨_, _, _, _, _, _, _, _, codeInitial, _, _, codeBody, _⟩
    rcases placed with ⟨isClause, placedBody, _⟩
    have inClause := ihInitial (placed_of_isClause isClause) codeInitial
    exact pools_append inClause (ihBody placedBody codeBody)
  | _ =>
    intro index declaration declared
    cases declared

end Statement

namespace Function.Implements

variable {function : Function} {declaration : Declaration}

theorem leaps_stand (implements : function.Implements declaration) :
    ∀ leap ∈ declaration.leaps, leap.StandsIn function.chunk := by
  rcases implements.code with ⟨layout, done, marks, fits, noLoop, _, code⟩
  have around : declaration.entry.Around function.chunk layout none :=
    ⟨fits, noLoop, by simp, by simp⟩
  exact declaration.body.leaps_stand implements.placed code around (by simp)

theorem exists_at? (implements : function.Implements declaration) {path : List Nat}
    {inner : Declaration} (declared : declaration.at? path = some inner) :
    ∃ found, function.at? path = some found ∧ found.Implements inner := by
  induction path generalizing function declaration with
  | nil =>
    cases declared
    exact ⟨function, rfl, implements⟩
  | cons place path ih =>
    rcases Option.bind_eq_some_iff.mp declared with ⟨outer, outerDeclared, innerDeclared⟩
    rcases implements.code with ⟨layout, _, _, _, _, noFunctions, code⟩
    rcases declaration.body.pools implements.placed code place outer outerDeclared with
      ⟨holder, held, implementsOuter⟩
    rw [noFunctions, Nat.zero_add] at held
    rcases ih implementsOuter innerDeclared with ⟨found, reached, implementsInner⟩
    exact ⟨found, Option.bind_eq_some_iff.mpr ⟨holder, held, reached⟩, implementsInner⟩

end Function.Implements

/--
In the code of every function of a program, every `break` and every `continue` stands in a loop of
the same function. It gives up the open locals of the scopes inside of that loop, one instruction
for each. Then a `continue` jumps back to the increment of the loop, to its condition if there is no
increment, and to its body if there is neither. A `break` jumps behind the loop, where the value of
the condition has been discarded and the locals of the loop have not.
-/
theorem compile_leaps {text : String} {script : Function} (compiled : compile text = .ok script) :
    ∃ program, Grammar.Program (tokens text) program ∧
      (∀ other, Grammar.Program (tokens text) other → other = program) ∧
      ∀ path declaration, (Declaration.program program).at? path = some declaration →
        ∃ function, script.at? path = some function ∧
          function.name = declaration.name.getD Function.scriptName ∧
          function.arity = declaration.parameters.length ∧
          ∀ leap ∈ declaration.leaps, leap.StandsIn function.chunk := by
  rcases compile_read compiled with ⟨program, derives, stops, writes⟩
  have laid := Function.laid_of_writesScript derives writes
  rcases Statement.implements_of_writesScript laid.placed writes with
    ⟨⟨done, code, _⟩, _, nameEq, arityEq⟩
  have implements : script.Implements (.program program) :=
    ⟨nameEq, arityEq, laid.placed, .script, done, _, Declaration.fits_program program, rfl, rfl,
      code⟩
  refine ⟨program, derives, fun other derivesToo => (derives.unique derivesToo).symm, ?_⟩
  intro path declaration declared
  rcases implements.exists_at? declared with ⟨function, reached, implementsInner⟩
  exact ⟨function, reached, implementsInner.name_eq, implementsInner.arity_eq,
    implementsInner.leaps_stand⟩

/-- A loop with all clauses, left and repeated from inside of two blocks. -/
def leapingText : String :=
  "for (var i = 0; i < 3; i = i + 1) { var a; { var b; if (a) break; else continue; } }"

/-- Both leaps of that program, each with two locals to give up, and where they lead. -/
theorem compile_leaps_leapingText :
    ∃ script program, compile leapingText = .ok script ∧
      [33, 34, 35, 42, 43, 44].map (Instruction.decode script.chunk.code) =
        [.found .pop, .found .pop, .found (.jump (53 - 38)),
          .found .pop, .found .pop, .found (.loop (47 - 14))] ∧
      Grammar.Program (tokens leapingText) program ∧
      ∀ leap ∈ (Declaration.program program).leaps, leap.StandsIn script.chunk := by
  have evaluated : (match compile leapingText with
      | .ok script => [33, 34, 35, 42, 43, 44].map (Instruction.decode script.chunk.code)
      | .error _ => []) = [.found .pop, .found .pop, .found (.jump (53 - 38)),
        .found .pop, .found .pop, .found (.loop (47 - 14))] := by decide +kernel
  split at evaluated
  · next script compiled =>
    rcases compile_leaps compiled with ⟨program, derives, _, stand⟩
    rcases stand [] _ rfl with ⟨function, reached, _, _, leaps⟩
    cases reached
    exact ⟨script, program, compiled, evaluated, derives, leaps⟩
  · cases evaluated

end StackScript
