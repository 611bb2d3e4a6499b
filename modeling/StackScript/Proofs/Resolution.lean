import StackScript.Proofs.Compiled
import StackScript.Proofs.Orders
import StackScript.Proofs.Scoping
import StackScript.Proofs.UniqueTree

/-!
# Names in code

The compiler keeps one list of locals and looks for a name from the latest one on. This comes to
lexical scoping: the lists of the open scopes in a row are that list, and the position of a local in
it is its slot. So the accesses in the code of a function are those that the names in its body
denote.
-/

namespace StackScript

/-! ## Accesses in code -/

namespace Chunk

variable (chunk : Chunk Constant)

def accessOf? : Instruction → Option Access
  | .getLocal number => some ⟨false, .slot number⟩
  | .setLocal number => some ⟨true, .slot number⟩
  | .getGlobal place => some ⟨false, .global chunk.constants[place]?⟩
  | .setGlobal place => some ⟨true, .global chunk.constants[place]?⟩
  | _ => none

/-- The function that is loaded. -/
def loadOf? : Instruction → Option Function
  | .constant place => chunk.constants[place]?.bind Datum.function?
  | _ => none

def accesses : List Access :=
  chunk.instructions.filterMap chunk.accessOf?

def loaded : List Function :=
  chunk.instructions.filterMap chunk.loadOf?

end Chunk

/--
Whether the names of a function are resolved as its declaration says. No two open locals have the
same slot, the instructions for global variables refer to their names in the order of the
declaration, and the same holds for the functions declared in it.
-/
inductive Function.Resolves : Declaration → Function → Prop where
  | mk {declaration : Declaration} {function : Function}
      (name_eq : function.name = declaration.name.getD Function.scriptName)
      (arity_eq : function.arity = declaration.parameters.length)
      (accesses_eq : function.chunk.accesses = declaration.moments.filterMap Moment.access?)
      (apart : ∀ moment ∈ declaration.moments, (moment.locals.map (·.slot)).Nodup)
      (names : List.Forall₂ function.chunk.Names function.chunk.globalPlaces declaration.globals)
      (inside : List.Forall₂ Function.Resolves declaration.body.functions function.chunk.loaded) :
      Function.Resolves declaration function

/-! ## Orders -/

def Chunk.Loads (chunk : Chunk Constant) (declaration : Declaration) (function : Function) :
    Prop :=
  ∃ (place : Nat) (name : String) (marks : List (Nat × Nat)),
    chunk.constants[place]? = some (.function function) ∧ declaration.name = some name ∧
    function.name = name ∧ function.arity = declaration.parameters.length ∧
    function.chunk.Implements (.function name declaration.parameters) declaration.body marks

namespace Order

/-- The access that is ordered. -/
def access? : Order → Option Access
  | plain (.getLocal number) => some ⟨false, .slot number⟩
  | plain (.setLocal number) => some ⟨true, .slot number⟩
  | get name => some ⟨false, .global (some (.string name))⟩
  | set name => some ⟨true, .global (some (.string name))⟩
  | _ => none

/-- The global variable that is meant. -/
def global? : Order → Option String
  | get name | set name | define name => some name
  | _ => none

/-- Whether an order is for a variable. -/
def isNaming : Order → Bool
  | plain (.getLocal _) | plain (.setLocal _) | get _ | set _ | define _ => true
  | _ => false

def declaration? : Order → Option Declaration
  | function _ name parameters body => some ⟨some name, parameters, body⟩
  | _ => none

variable {chunk : Chunk Constant} {before : Nat} {order : Order} {instruction : Instruction}

theorem Stands.accesses (stands : order.Stands chunk before instruction) :
    Option.Rel Eq (chunk.accessOf? instruction) order.access? := by
  cases stands with
  | plain noPool => cases instruction <;> first | exact .none | exact .some rfl | cases noPool
  | get named => exact .some (congrArg (fun found => Access.mk false (.global found)) named)
  | set named => exact .some (congrArg (fun found => Access.mk true (.global found)) named)
  | _ => exact .none

theorem Stands.names (stands : order.Stands chunk before instruction) :
    Option.Rel chunk.Names instruction.globalPlace? order.global? := by
  cases stands with
  | plain noPool => cases instruction <;> first | exact .none | cases noPool
  | get named | set named | define named => exact .some named
  | _ => exact .none

theorem Stands.loads (stands : order.Stands chunk before instruction) :
    Option.Rel chunk.Loads order.declaration? (chunk.loadOf? instruction) := by
  cases stands with
  | plain noPool => cases instruction <;> first | exact .none | cases noPool
  | load plain held =>
    rw [Chunk.loadOf?, held, Option.bind_some, plain]
    exact .none
  | function held _ nameEq arityEq implements =>
    rw [Chunk.loadOf?, held]
    exact .some ⟨_, _, _, held, rfl, nameEq, arityEq, implements⟩
  | _ => exact .none

theorem filterMap_access? (orders : List Order) :
    (orders.filter isNaming).filterMap access? = orders.filterMap access? := by
  rw [List.filterMap_filter]
  congr 1
  funext order
  cases order with
  | plain instruction => cases instruction <;> rfl
  | _ => rfl

theorem filterMap_global? (orders : List Order) :
    (orders.filter isNaming).filterMap global? = orders.filterMap global? := by
  rw [List.filterMap_filter]
  congr 1
  funext order
  cases order with
  | plain instruction => cases instruction <;> rfl
  | _ => rfl

end Order

/-- The order for a name, unless it declares a local. -/
def Moment.order? : Moment → Option Order
  | use isWrite name scoping => some <|
    match scoping.slot? name with
    | some number => .plain (cond isWrite (.setLocal number) (.getLocal number))
    | none => cond isWrite (.set name) (.get name)
  | declaration name scoping => if scoping.scopes.isEmpty then some (.define name) else none

def ordersOf (moments : List Moment) : List Order :=
  moments.filterMap Moment.order?

@[simp] theorem ordersOf_append (moments others : List Moment) :
    ordersOf (moments ++ others) = ordersOf moments ++ ordersOf others :=
  List.filterMap_append

theorem filterMap_access?_ordersOf (moments : List Moment) :
    (ordersOf moments).filterMap Order.access? = moments.filterMap Moment.access? := by
  rw [ordersOf, List.filterMap_filterMap]
  congr 1
  funext moment
  cases moment with
  | use isWrite name scoping =>
    simp only [Moment.order?, Moment.access?, Scoping.target]
    cases isWrite <;> cases scoping.slot? name <;> rfl
  | declaration name scoping =>
    simp only [Moment.order?, Moment.access?]
    split <;> rfl

theorem filterMap_global?_ordersOf (moments : List Moment) :
    (ordersOf moments).filterMap Order.global? = moments.filterMap Moment.global? := by
  rw [ordersOf, List.filterMap_filterMap]
  congr 1
  funext moment
  cases moment with
  | use isWrite name scoping =>
    simp only [Moment.order?, Moment.global?]
    cases isWrite <;> cases scoping.slot? name <;> rfl
  | declaration name scoping =>
    simp only [Moment.order?, Moment.global?]
    split <;> rfl

/-- The instructions in code carry out its orders one after the other. -/
theorem Chunk.Holds.exists_walk {chunk : Chunk Constant} {before start stop : Nat}
    {orders : List Order} (holds : chunk.Holds before orders start stop) :
    ∃ offsets, Walk chunk.code start offsets stop ∧
      List.Forall₂ (fun instruction order => order.Stands chunk before instruction)
        (offsets.filterMap chunk.instructionAt?) orders := by
  induction orders generalizing start with
  | nil =>
    cases holds
    exact ⟨[], .done _, .nil⟩
  | cons order rest ih =>
    rcases holds with ⟨instruction, found, stands, onward⟩
    rcases ih onward with ⟨offsets, walk, all⟩
    refine ⟨start :: offsets, .step found walk, ?_⟩
    rw [List.filterMap_cons, found.instructionAt?_eq]
    exact .cons stands all

/-! ## Expressions -/

variable {layout : Layout} {scoping : Scoping}

theorem namings_access {name : String} (isWrite : Bool) (fits : scoping.Fits layout)
    (named : scoping.own = none → name ≠ "") :
    [Order.access layout.names name (cond isWrite .setLocal .getLocal)
      (cond isWrite .set .get)].filter Order.isNaming =
        ordersOf [.use isWrite name scoping] := by
  simp only [Order.access, fits.slotOf?_eq named, ordersOf, List.filterMap_cons, Moment.order?]
  cases isWrite <;> cases scoping.slot? name <;> rfl

namespace Expression

theorem namings_ordersAll {arguments : List Expression}
    (each : ∀ argument ∈ arguments, (scoping.own = none → argument.Named) →
      (argument.orders layout.names).filter Order.isNaming =
        ordersOf (argument.moments scoping))
    (named : scoping.own = none → AllNamed arguments) :
    (ordersAll layout.names arguments).filter Order.isNaming =
      ordersOf (allMoments scoping arguments) := by
  induction arguments with
  | nil => rfl
  | cons first rest ih =>
    rw [ordersAll, allMoments, List.filter_append, ordersOf_append,
      each first (by simp) fun own => (named own).1,
      ih (fun argument later => each argument (by simp [later])) fun own => (named own).2]

/-- The orders for variables among those of an expression are the ones that its names ask for. -/
theorem namings_orders (expression : Expression) (fits : scoping.Fits layout)
    (named : scoping.own = none → expression.Named) :
    (expression.orders layout.names).filter Order.isNaming =
      ordersOf (expression.moments scoping) := by
  induction expression with
  | number value | string text => rfl
  | literal value => cases value <;> rfl
  | reference name =>
    exact namings_access false fits named
  | assign name value ih =>
    have named' := namings_access true fits fun own => (named own).1
    rw [orders, moments, List.filter_append, ordersOf_append, ih fun own => (named own).2]
    exact congrArg _ named'
  | unary operator operand ih =>
    rw [orders, moments, List.filter_append, ih named]
    cases operator <;> exact List.append_nil _
  | binary operator left right ihLeft ihRight =>
    rw [orders, moments, List.filter_append, List.filter_append, ordersOf_append,
      ihLeft fun own => (named own).1, ihRight fun own => (named own).2]
    cases operator <;> exact congrArg _ (List.append_nil _)
  | and left right ihLeft ihRight | or left right ihLeft ihRight =>
    rw [orders, moments, List.filter_append, ordersOf_append,
      ← ihLeft fun own => (named own).1, ← ihRight fun own => (named own).2]
    rfl
  | call callee arguments ihCallee ihArguments =>
    rw [orders, moments, List.filter_append, List.filter_append, ordersOf_append,
      ihCallee fun own => (named own).1, namings_ordersAll ihArguments fun own => (named own).2]
    exact congrArg _ (List.append_nil _)

end Expression

/-! ## Statements -/

theorem Expression.declarations_orders {names : List String} (expression : Expression) :
    (expression.orders names).filterMap Order.declaration? = [] := by
  refine List.filterMap_eq_nil_iff.mpr fun order present => ?_
  have inner := expression.inner order present
  cases order <;> first | rfl | cases inner

namespace Statement

variable {site : Site} {given : Option Expression}

theorem declarations_orders (statement : Statement) (site : Site) (functions ahead : Nat) :
    (statement.orders site functions ahead).filterMap Order.declaration? = statement.functions := by
  induction statement generalizing site functions ahead with
  | varDeclaration name initial =>
    cases initial <;> cases outermost : site.isOutermost <;>
      simp [orders, Statement.functions, initialOrders, Site.defines, outermost,
        Expression.declarations_orders, Order.declaration?]
  | funDeclaration name parameters body ih =>
    cases outermost : site.isOutermost <;>
      simp [orders, Statement.functions, Site.defines, outermost, Order.declaration?]
  | breakLoop | continueLoop =>
    cases inLoop : site.loop <;> simp [orders, Statement.functions, inLoop, Order.declaration?]
  | returnValue value =>
    cases value <;> simp [orders, Statement.functions, resultOrders,
      Expression.declarations_orders, Order.declaration?]
  | forLoop initial condition increment body ihInitial ihBody =>
    cases condition <;> cases increment <;>
      simp [orders, Statement.functions, roundOrders, conditionOrders, incrementOrders, exitOrders,
        Expression.declarations_orders, Order.declaration?, ihInitial, ihBody, List.filterMap_cons]
  | _ =>
    simp_all [orders, Statement.functions, roundOrders, conditionOrders, incrementOrders,
      exitOrders, Expression.declarations_orders, Order.declaration?, List.filterMap_cons]

theorem namings_given (fits : scoping.Fits layout) (measures : site.Measures layout)
    (named : scoping.own = none → ∀ value ∈ given, value.Named) :
    ∀ value ∈ given, (value.orders site.names).filter Order.isNaming =
      ordersOf (value.moments scoping) := by
  intro value present
  rw [← measures.names_eq]
  exact value.namings_orders fits fun own => named own value present

theorem namings_defines (fits : scoping.Fits layout) (measures : site.Measures layout)
    (name : String) :
    (site.defines name).filter Order.isNaming = ordersOf [.declaration name scoping] := by
  simp only [Site.defines, ← measures.outermost_eq, fits.isOutermost_eq, ordersOf,
    List.filterMap_cons, Moment.order?]
  cases scoping.scopes.isEmpty <;> rfl

/-- The orders for variables among those of a statement are the ones that its names ask for. -/
theorem namings_orders (statement : Statement) (fits : scoping.Fits layout)
    (measures : site.Measures layout) (named : scoping.own = none → statement.Named)
    (placed : statement.Placed) (functions ahead : Nat) :
    (statement.orders site functions ahead).filter Order.isNaming =
      ordersOf (statement.moments scoping) := by
  induction statement generalizing layout scoping site functions ahead with
  | empty => rfl
  | sequence first rest ihFirst ihRest =>
    have namedRest : (first.opens scoping).own = none → rest.Named := fun own =>
      (named (own_opens first scoping ▸ own)).2
    rw [orders, moments, List.filter_append, ordersOf_append,
      ihFirst fits measures (fun own => (named own).1) placed.1,
      ihRest (fits.opens first) ((measures.after first).past _) namedRest placed.2]
  | expression value | print value =>
    rw [orders, moments, ← measures.names_eq, List.filter_append, value.namings_orders fits named]
    exact List.append_nil _
  | varDeclaration name initial =>
    have each := namings_given fits measures named
    rw [orders, moments, List.filter_append, ordersOf_append, namings_defines fits measures]
    cases initial with
    | none => rfl
    | some value => exact congrArg (· ++ _) (each value rfl)
  | funDeclaration name parameters body _ => exact namings_defines fits measures name
  | block body ih =>
    simp [orders, moments, ih fits.enter measures.inScope named placed, Order.isNaming]
  | conditional condition met unmet ihMet ihUnmet =>
    rcases placed with ⟨placedMet, metDeclares, placedUnmet, _⟩
    have fitsUnmet : scoping.Fits (layout.after met) :=
      fits.congr (by simp [Layout.after, Layout.binds, metDeclares]) rfl
    simp [orders, moments, ← measures.names_eq, Order.isNaming,
      condition.namings_orders fits fun own => (named own).1,
      ihMet fits (measures.past _) (fun own => (named own).2.1) placedMet,
      ihUnmet fitsUnmet ((measures.after met).past _) (fun own => (named own).2.2) placedUnmet]
  | whileLoop condition body ih =>
    have fitsBody : scoping.enter.Fits (layout.inLoop 0 0) := fits.enter.congr rfl rfl
    have tests := condition.namings_orders fits.enter fun own => (named own).1
    rw [measures.inScope.names_eq] at tests
    simp [orders, moments, roundOrders, conditionOrders, incrementOrders, exitOrders,
      Order.isNaming, show (condition.orders site.names).filter _ = _ from tests,
      ih fitsBody ((measures.inScope.inLoop rfl 0 0).past _) (fun own => (named own).2) placed.1]
  | forLoop initial condition increment body ihInitial ihBody =>
    rcases placed with ⟨isClause, placedBody, _⟩
    have inside := fits.enter.opens initial
    have measuresInside := (measures.inScope.after initial).inLoop rfl 0 0
    have fitsInside : (initial.opens scoping.enter).Fits
        ((layout.inScope.after initial).inLoop 0 0) := inside.congr rfl rfl
    have same : (initial.opens scoping.enter).own = scoping.own := own_opens initial scoping.enter
    have tests := namings_given fitsInside measuresInside fun own => (named (same ▸ own)).2.1
    have advances := namings_given fitsInside measuresInside fun own => (named (same ▸ own)).2.2.1
    have begins := ihInitial fits.enter measures.inScope (fun own => (named own).1)
      (placed_of_isClause isClause) functions ahead
    have inBody := ihBody fitsInside (measuresInside.past (roundSize condition increment))
      (fun own => (named (same ▸ own)).2.2.2) placedBody
    cases condition <;> cases increment <;>
      simp_all [orders, moments, roundOrders, conditionOrders, incrementOrders, exitOrders,
        Expression.momentsOf, Order.isNaming]
  | breakLoop | continueLoop =>
    cases inLoop : site.loop <;>
      simp [orders, moments, inLoop, Order.isNaming, ordersOf]
  | returnValue value =>
    have each := namings_given fits measures named
    cases value <;>
      simp_all [orders, moments, resultOrders, Expression.momentsOf, ordersOf, Order.isNaming]

def AllWritten (chunk : Chunk Constant) : Prop :=
  ∀ (place : Nat) (function : Function),
    chunk.constants[place]? = some (.function function) → function.Written

end Statement

/-- Whether every function that is the code of a declaration resolves its names accordingly. -/
def Declaration.Resolved (declaration : Declaration) : Prop :=
  ∀ ⦃chunk : Chunk Constant⦄ ⦃function : Function⦄, Statement.AllWritten chunk →
    chunk.Loads declaration function → Function.Resolves declaration function

namespace Statement

theorem ordersOf_parameterMoments (inside : scoping.scopes.isEmpty = false)
    (parameters : List String) :
    ordersOf (Declaration.parameterMoments parameters scoping) = [] := by
  induction parameters generalizing scoping with
  | nil => rfl
  | cons name rest ih =>
    have stillInside : (scoping.declare name).scopes.isEmpty = false := by
      rw [Scoping.declare]
      split
      · exact inside
      · rfl
    simp only [Declaration.parameterMoments, ordersOf, List.filterMap_cons, Moment.order?, inside]
    exact ih stillInside

theorem resolves_of_implements {site : Site} {declaration : Declaration} {function : Function}
    {marks : List (Nat × Nat)} (placed : declaration.body.Placed)
    (nameEq : function.name = declaration.name.getD Function.scriptName)
    (arityEq : function.arity = declaration.parameters.length)
    (parameters : ordersOf (Declaration.parameterMoments declaration.parameters
      declaration.start) = [])
    (fits : declaration.entry.Fits layout) (locates : site.Locates layout 0 0 0 0)
    (named : declaration.entry.own = none → declaration.body.Named)
    (implements : function.chunk.Implements layout declaration.body marks)
    (finished : function.chunk.Finished)
    (inside : ∀ inner ∈ declaration.body.functions, inner.Resolved) :
    Function.Resolves declaration function := by
  rcases (implements.holds placed locates).exists_walk with ⟨offsets, walk, carried⟩
  rw [← finished.cut.unique walk] at carried
  have accesses : List.Forall₂ Eq function.chunk.accesses _ :=
    List.rel_filterMap (fun _ _ stands => stands.accesses) carried
  have names : List.Forall₂ function.chunk.Names function.chunk.globalPlaces _ :=
    List.rel_filterMap (fun _ _ stands => stands.names) carried
  have loads : List.Forall₂ function.chunk.Loads _ function.chunk.loaded :=
    List.rel_filterMap (fun _ _ stands => stands.loads) carried.flip
  -- What a function is left with refers to no variable.
  have namings : (declaration.body.orders site 0 0 ++
      [Order.plain .loadNil, Order.plain .ret]).filter Order.isNaming =
        ordersOf declaration.moments := by
    rw [List.filter_append, declaration.body.namings_orders fits locates.toMeasures named placed,
      Declaration.moments, ordersOf_append, parameters]
    exact List.append_nil _
  rw [← Order.filterMap_access?, namings, filterMap_access?_ordersOf] at accesses
  rw [← Order.filterMap_global?, namings, filterMap_global?_ordersOf] at names
  rw [List.filterMap_append, declarations_orders] at loads
  refine .mk nameEq arityEq (List.forall₂_eq_eq_eq ▸ accesses)
    (fun moment => declaration.nodup_slots) names ?_
  have each := (List.forall₂_and_left _ _).mpr ⟨inside, (List.append_nil _) ▸ loads⟩
  exact each.imp fun _ _ both => both.1 finished.functions_written both.2

theorem functions_resolved (statement : Statement) (placed : statement.Placed) :
    ∀ inner ∈ statement.functions, inner.Resolved := by
  induction statement with
  | sequence first rest ihFirst ihRest =>
    exact List.forall_mem_append.mpr ⟨ihFirst placed.1, ihRest placed.2⟩
  | funDeclaration name parameters body ih =>
    refine List.forall_mem_singleton.mpr ?_
    rintro chunk function written ⟨place, _, marks, held, ⟨⟩, nameEq, arityEq, implements⟩
    rcases written place function held with ⟨_, _, _, _, placedInside, writes⟩
    exact resolves_of_implements placed nameEq arityEq (ordersOf_parameterMoments rfl parameters)
      (Declaration.fits_function name parameters body) (.function name parameters) (by simp)
      implements (Function.laid_of_writesFunction placedInside writes).finished (ih placed)
  | block body ih => exact ih placed
  | conditional condition met unmet ihMet ihUnmet =>
    exact List.forall_mem_append.mpr ⟨ihMet placed.1, ihUnmet placed.2.2.1⟩
  | whileLoop condition body ih => exact ih placed.1
  | forLoop initial condition increment body ihInitial ihBody =>
    exact List.forall_mem_append.mpr
      ⟨ihInitial (placed_of_isClause placed.1), ihBody placed.2.1⟩
  | _ => exact List.forall_mem_nil _

end Statement

theorem Function.resolves_of_compile {text : String} {script : Function}
    (compiled : compile text = .ok script) :
    ∃ program, Grammar.Program (tokens text) program ∧
      Function.Resolves (.program program) script := by
  rcases compile_read compiled with ⟨program, derives, stops, writes⟩
  have laid := Function.laid_of_writesScript derives writes
  rcases Statement.implements_of_writesScript laid.placed writes with
    ⟨implements, finished, nameEq, arityEq⟩
  exact ⟨program, derives, Statement.resolves_of_implements laid.placed nameEq arityEq rfl
    (Declaration.fits_program program) .script (fun _ => laid.named rfl) implements finished
    (program.functions_resolved laid.placed)⟩

theorem Function.Resolves.names {declaration : Declaration} {function : Function}
    (resolves : Function.Resolves declaration function) :
    List.Forall₂ function.chunk.Names function.chunk.globalPlaces declaration.globals := by
  cases resolves with
  | mk _ _ _ _ names _ => exact names

/--
A program that compiles has one tree, and its names are resolved by lexical scoping: the accesses to
variables in the code of the script and of every function in it are those that the names in its
body denote, in the order of the code, and two locals open at the same time have different slots.
-/
theorem compile_resolves {text : String} {script : Function}
    (compiled : compile text = .ok script) :
    ∃ program, Grammar.Program (tokens text) program ∧
      (∀ other, Grammar.Program (tokens text) other → other = program) ∧
      Function.Resolves (.program program) script := by
  rcases Function.resolves_of_compile compiled with ⟨program, derives, resolves⟩
  exact ⟨program, derives, fun other derivesToo => (derives.unique derivesToo).symm, resolves⟩

/-- Scopes in each other, a parameter with the name of its function, and a function in a block. -/
def shadowingText : String :=
  "var a; { var a = 1; { var b = a; a = b; } fun f(g, f) { return f(g, a); } fun g() { g = a; } }"

/-- The slots of the accesses in code; those to global variables have none. -/
def Chunk.slots (chunk : Chunk Constant) : List (Option Nat) :=
  chunk.accesses.map fun access =>
    match access.target with
    | .slot number => some number
    | .global _ => none

/-- The accesses of that program and of its two functions. -/
theorem compile_resolves_shadowingText :
    ∃ script program, compile shadowingText = .ok script ∧
      script.chunk.slots = [some 1, some 2, some 1] ∧
      script.chunk.loaded.map (·.chunk.slots) = [[some 2, some 1, none], [none, some 0]] ∧
      Function.Resolves (.program program) script := by
  have evaluated : (match compile shadowingText with
      | .ok script => (script.chunk.slots, script.chunk.loaded.map (·.chunk.slots))
      | .error _ => ([], [])) =
        ([some 1, some 2, some 1], [[some 2, some 1, none], [none, some 0]]) := by decide +kernel
  split at evaluated
  · next script compiled =>
    rcases compile_resolves compiled with ⟨program, _, _, resolves⟩
    simp only [Prod.mk.injEq] at evaluated
    exact ⟨script, program, compiled, evaluated.1, evaluated.2, resolves⟩
  · cases evaluated

end StackScript
