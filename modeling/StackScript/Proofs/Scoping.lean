import StackScript.Proofs.Layout

/-!
# Lexical scoping

What the names in a program denote, said of its tree alone. A name denotes the local of that name in
the innermost scope that has one; failing that, the running function itself if this is its name;
failing that, a global variable. A function sees nothing of the scopes around its declaration.
-/

namespace StackScript

variable {moment : Moment} {scoping : Scoping}

/-- A local variable that is open. -/
structure OpenLocal where
  name : String
  slot : Nat

/-- What can be seen at a point of a function. -/
structure Scoping where
  /-- The name of the function; the outermost code of a program has none. -/
  own : Option String
  /-- The open scopes, the innermost first, each with its locals, the latest first. -/
  scopes : List (List OpenLocal)

namespace Scoping

def locals (scoping : Scoping) : List OpenLocal :=
  scoping.scopes.flatten

def enter (scoping : Scoping) : Scoping :=
  { scoping with scopes := [] :: scoping.scopes }

/-- Behind a declaration. Outside of all scopes it opens no local, since the variable is global. -/
def declare (scoping : Scoping) (name : String) : Scoping :=
  match scoping.scopes with
  | [] => scoping
  | scope :: outer =>
    { scoping with scopes := (⟨name, 1 + scoping.locals.length⟩ :: scope) :: outer }

/-- The slot that a name denotes, unless it denotes a global variable. -/
def slot? (scoping : Scoping) (name : String) : Option Nat :=
  match scoping.scopes.findSome? fun scope => scope.find? (·.name = name) with
  | some entry => some entry.slot
  | none => if scoping.own = some name then some 0 else none

end Scoping

/-- Where the value of a variable is kept. -/
inductive Target where
  | slot (number : Nat)
  | global (constant : Option Constant)

/-- What a name denotes. -/
def Scoping.target (scoping : Scoping) (name : String) : Target :=
  match scoping.slot? name with
  | some number => .slot number
  | none => .global (some (.string name))

/-- An access to a variable. -/
structure Access where
  isWrite : Bool
  target : Target

/-- A point of a function where a name stands, with what can be seen there. -/
inductive Moment where
  /-- A name as an expression or as the target of an assignment. -/
  | use (isWrite : Bool) (name : String) (scoping : Scoping)
  /-- A name that is declared, with what could be seen before. -/
  | declaration (name : String) (scoping : Scoping)

namespace Moment

/-- The access to the variable that a name denotes. -/
def access? : Moment → Option Access
  | use isWrite name scoping => some ⟨isWrite, scoping.target name⟩
  | declaration _ _ => none

/-- The name of the global variable that is meant, unless it is a local. -/
def global? : Moment → Option String
  | use _ name scoping => if (scoping.slot? name).isNone then some name else none
  | declaration name scoping => if scoping.scopes.isEmpty then some name else none

/-- The locals open at a moment. -/
def locals : Moment → List OpenLocal
  | use _ _ scoping => scoping.locals
  | declaration name scoping => (scoping.declare name).locals

end Moment

/-! ## Trees -/

mutual

/-- The names in an expression in the order of evaluation. -/
def Expression.moments (scoping : Scoping) : Expression → List Moment
  | .number _ | .string _ | .literal _ => []
  | .reference name => [.use false name scoping]
  | .assign name value => value.moments scoping ++ [.use true name scoping]
  | .unary _ operand => operand.moments scoping
  | .binary _ left right | .and left right | .or left right =>
    left.moments scoping ++ right.moments scoping
  | .call callee arguments => callee.moments scoping ++ Expression.allMoments scoping arguments

def Expression.allMoments (scoping : Scoping) : List Expression → List Moment
  | [] => []
  | first :: rest => first.moments scoping ++ Expression.allMoments scoping rest

end

def Expression.momentsOf (scoping : Scoping) (given : Option Expression) : List Moment :=
  given.elim [] (Expression.moments scoping)

/-- A function as it was declared, or a whole program, which has no name. -/
structure Declaration where
  name : Option String
  parameters : List String
  body : Statement

namespace Statement

/-- What can be seen behind a statement. -/
def opens : Statement → Scoping → Scoping
  | sequence first rest, scoping => rest.opens (first.opens scoping)
  | varDeclaration name _, scoping => scoping.declare name
  | funDeclaration name _ _, scoping => scoping.declare name
  | _, scoping => scoping

/-- The names in a statement in the order of its code, those inside of functions apart. -/
def moments : Statement → Scoping → List Moment
  | empty, _ | breakLoop, _ | continueLoop, _ => []
  | sequence first rest, scoping => first.moments scoping ++ rest.moments (first.opens scoping)
  | expression value, scoping | print value, scoping => value.moments scoping
  | varDeclaration name initial, scoping =>
    Expression.momentsOf scoping initial ++ [.declaration name scoping]
  | funDeclaration name _ _, scoping => [.declaration name scoping]
  | block body, scoping => body.moments scoping.enter
  | conditional condition met unmet, scoping =>
    condition.moments scoping ++ (met.moments scoping ++ unmet.moments scoping)
  | whileLoop condition body, scoping =>
    condition.moments scoping.enter ++ body.moments scoping.enter
  | forLoop initial condition increment body, scoping =>
    let inside := initial.opens scoping.enter
    initial.moments scoping.enter ++ (Expression.momentsOf inside condition ++
      (Expression.momentsOf inside increment ++ body.moments inside))
  | returnValue value, scoping => Expression.momentsOf scoping value

/-- The functions that a statement declares, those inside of functions apart. -/
def functions : Statement → List Declaration
  | sequence first rest => first.functions ++ rest.functions
  | funDeclaration name parameters body => [⟨some name, parameters, body⟩]
  | block body => body.functions
  | conditional _ met unmet => met.functions ++ unmet.functions
  | whileLoop _ body => body.functions
  | forLoop initial _ _ body => initial.functions ++ body.functions
  | _ => []

end Statement

namespace Declaration

def program (body : Statement) : Declaration :=
  ⟨none, [], body⟩

/-- What can be seen in front of the parameters: a function has a scope, a program has none. -/
def start (declaration : Declaration) : Scoping :=
  ⟨declaration.name, if declaration.name.isSome then [[]] else []⟩

/-- What can be seen in front of the body. -/
def entry (declaration : Declaration) : Scoping :=
  declaration.parameters.foldl Scoping.declare declaration.start

/-- The names of parameters, each declared behind the ones before it. -/
def parameterMoments : List String → Scoping → List Moment
  | [], _ => []
  | name :: rest, scoping =>
    .declaration name scoping :: parameterMoments rest (scoping.declare name)

/-- All names of a function. -/
def moments (declaration : Declaration) : List Moment :=
  parameterMoments declaration.parameters declaration.start ++
    declaration.body.moments declaration.entry

/-- The names of the global variables that a function refers to, in the order of its code. -/
def globals (declaration : Declaration) : List String :=
  declaration.moments.filterMap Moment.global?

end Declaration

@[simp] theorem Scoping.own_declare (scoping : Scoping) (name : String) :
    (scoping.declare name).own = scoping.own := by
  rw [declare]
  split <;> rfl

@[simp] theorem Statement.own_opens (statement : Statement) (scoping : Scoping) :
    (statement.opens scoping).own = scoping.own := by
  induction statement generalizing scoping with
  | sequence first rest ihFirst ihRest => rw [opens, ihRest, ihFirst]
  | varDeclaration name initial => exact scoping.own_declare name
  | funDeclaration name parameters body _ => exact scoping.own_declare name
  | _ => rfl

@[simp] theorem Declaration.own_entry (declaration : Declaration) :
    declaration.entry.own = declaration.name := by
  have kept (parameters : List String) (scoping : Scoping) :
      (parameters.foldl Scoping.declare scoping).own = scoping.own := by
    induction parameters generalizing scoping with
    | nil => rfl
    | cons name rest ih => rw [List.foldl_cons, ih, Scoping.own_declare]
  exact kept declaration.parameters declaration.start

/-! ## Slots -/

/-- Whether the slot of every local is the number of those that were opened before, and one. -/
def Dense : List OpenLocal → Prop
  | [] => True
  | entry :: outer => entry.slot = 1 + outer.length ∧ Dense outer

namespace Dense

variable {locals : List OpenLocal} {scoping : Scoping}

theorem slot_le {entry : OpenLocal} (dense : Dense locals) (present : entry ∈ locals) :
    entry.slot ≤ locals.length := by
  induction locals with
  | nil => cases present
  | cons latest outer ih =>
    rcases List.mem_cons.mp present with rfl | older
    · simp [dense.1, Nat.add_comm]
    · exact Nat.le_succ_of_le (ih dense.2 older)

theorem nodup (dense : Dense locals) : (locals.map (·.slot)).Nodup := by
  induction locals with
  | nil => exact List.nodup_nil
  | cons latest outer ih =>
    refine List.nodup_cons.mpr ⟨?_, ih dense.2⟩
    intro taken
    rcases List.mem_map.mp taken with ⟨entry, present, slotEq⟩
    have below := dense.2.slot_le present
    have above : entry.slot = 1 + outer.length := slotEq.trans dense.1
    omega

theorem declare (dense : Dense scoping.locals) (name : String) :
    Dense (scoping.declare name).locals := by
  rw [Scoping.declare]
  split
  · exact dense
  · next scope outer scopesEq =>
    rw [Scoping.locals, scopesEq] at dense
    refine ⟨?_, dense⟩
    rw [Scoping.locals, scopesEq]
    rfl

theorem opens (dense : Dense scoping.locals) (statement : Statement) :
    Dense (statement.opens scoping).locals := by
  induction statement generalizing scoping with
  | sequence first rest ihFirst ihRest => exact ihRest (ihFirst dense)
  | varDeclaration name _ => exact dense.declare name
  | funDeclaration name _ _ => exact dense.declare name
  | _ => exact dense

end Dense

theorem Expression.locals_of_mem_moments (expression : Expression)
    (present : moment ∈ expression.moments scoping) : moment.locals = scoping.locals := by
  induction expression with
  | number value | string text | literal value => cases present
  | reference name => rw [List.mem_singleton.mp present, Moment.locals]
  | assign name value ih =>
    rcases List.mem_append.mp present with inValue | here
    · exact ih inValue
    · rw [List.mem_singleton.mp here, Moment.locals]
  | unary operator operand ih => exact ih present
  | binary operator left right ihLeft ihRight | and left right ihLeft ihRight
  | or left right ihLeft ihRight =>
    rcases List.mem_append.mp present with inLeft | inRight
    · exact ihLeft inLeft
    · exact ihRight inRight
  | call callee arguments ihCallee ihArguments =>
    rcases List.mem_append.mp present with inCallee | inArguments
    · exact ihCallee inCallee
    · clear present
      induction arguments with
      | nil => cases inArguments
      | cons first rest ih =>
        rcases List.mem_append.mp inArguments with inFirst | inRest
        · exact ihArguments first (by simp) inFirst
        · exact ih (fun argument later => ihArguments argument (by simp [later])) inRest

theorem Expression.locals_of_mem_momentsOf {given : Option Expression}
    (present : moment ∈ Expression.momentsOf scoping given) : moment.locals = scoping.locals := by
  cases given with
  | none => cases present
  | some value => exact value.locals_of_mem_moments present

theorem Statement.dense_of_mem_moments (statement : Statement) (dense : Dense scoping.locals)
    (present : moment ∈ statement.moments scoping) : Dense moment.locals := by
  induction statement generalizing scoping with
  | empty | breakLoop | continueLoop => cases present
  | sequence first rest ihFirst ihRest =>
    rcases List.mem_append.mp present with inFirst | inRest
    · exact ihFirst dense inFirst
    · exact ihRest (dense.opens first) inRest
  | expression value | print value =>
    rw [value.locals_of_mem_moments present]
    exact dense
  | varDeclaration name initial =>
    rcases List.mem_append.mp present with inInitial | here
    · rw [Expression.locals_of_mem_momentsOf inInitial]
      exact dense
    · rw [List.mem_singleton.mp here]
      exact dense.declare name
  | funDeclaration name parameters body _ =>
    rw [List.mem_singleton.mp present]
    exact dense.declare name
  | block body ih =>
    have entered : Dense scoping.enter.locals := dense
    exact ih entered present
  | conditional condition met unmet ihMet ihUnmet =>
    rcases List.mem_append.mp present with inCondition | inBranches
    · rw [condition.locals_of_mem_moments inCondition]
      exact dense
    · rcases List.mem_append.mp inBranches with inMet | inUnmet
      · exact ihMet dense inMet
      · exact ihUnmet dense inUnmet
  | whileLoop condition body ih =>
    have entered : Dense scoping.enter.locals := dense
    rcases List.mem_append.mp present with inCondition | inBody
    · rw [condition.locals_of_mem_moments inCondition]
      exact entered
    · exact ih entered inBody
  | forLoop initial condition increment body ihInitial ihBody =>
    have entered : Dense scoping.enter.locals := dense
    have inside := entered.opens initial
    rcases List.mem_append.mp present with inInitial | behind
    · exact ihInitial entered inInitial
    · rcases List.mem_append.mp behind with inCondition | behind
      · rw [Expression.locals_of_mem_momentsOf inCondition]
        exact inside
      · rcases List.mem_append.mp behind with inIncrement | inBody
        · rw [Expression.locals_of_mem_momentsOf inIncrement]
          exact inside
        · exact ihBody inside inBody
  | returnValue value =>
    rw [Expression.locals_of_mem_momentsOf present]
    exact dense

namespace Declaration

variable {moment : Moment} {scoping : Scoping}

theorem dense_start (declaration : Declaration) : Dense declaration.start.locals := by
  rw [start, Scoping.locals]
  split <;> trivial

theorem dense_parameters (dense : Dense scoping.locals) (parameters : List String) :
    Dense (parameters.foldl Scoping.declare scoping).locals := by
  induction parameters generalizing scoping with
  | nil => exact dense
  | cons name rest ih => exact ih (dense.declare name)

theorem dense_of_mem_parameterMoments {parameters : List String} (dense : Dense scoping.locals)
    (present : moment ∈ parameterMoments parameters scoping) : Dense moment.locals := by
  induction parameters generalizing scoping with
  | nil => cases present
  | cons name rest ih =>
    rcases List.mem_cons.mp present with rfl | later
    · exact dense.declare name
    · exact ih (dense.declare name) later

/-- No two locals that are open at the same time have the same slot. -/
theorem nodup_slots (declaration : Declaration) (present : moment ∈ declaration.moments) :
    (moment.locals.map (·.slot)).Nodup := by
  have start := declaration.dense_start
  rcases List.mem_append.mp present with inParameters | inBody
  · exact (dense_of_mem_parameterMoments start inParameters).nodup
  · exact (declaration.body.dense_of_mem_moments (dense_parameters start _) inBody).nodup

end Declaration

/-! ## Layouts -/

namespace Scoping

/-- Whether a layout says the same. -/
structure Fits (scoping : Scoping) (layout : Layout) : Prop where
  names_eq : layout.names = scoping.locals.map (·.name) ++ [scoping.own.getD ""]
  isOutermost_eq : layout.isOutermost = scoping.scopes.isEmpty
  dense : Dense scoping.locals

theorem slotOf?_names {locals : List OpenLocal} (dense : Dense locals) (name last : String) :
    slotOf? name (locals.map (·.name) ++ [last]) =
      match locals.find? (·.name = name) with
      | some entry => some entry.slot
      | none => if last = name then some 0 else none := by
  induction locals with
  | nil => simp [slotOf?]
  | cons latest outer ih =>
    rw [List.map_cons, List.cons_append, slotOf?, List.find?_cons]
    by_cases same : latest.name = name
    · simp [same, dense.1, Nat.add_comm]
    · simp only [same, if_false, decide_false]
      exact ih dense.2

theorem Fits.slotOf?_eq {scoping : Scoping} {layout : Layout} {name : String}
    (fits : scoping.Fits layout) (named : scoping.own = none → name ≠ "") :
    slotOf? name layout.names = scoping.slot? name := by
  have innermost : scoping.locals.find? (·.name = name) =
      scoping.scopes.findSome? fun scope => scope.find? (·.name = name) := List.find?_flatten
  rw [fits.names_eq, slotOf?_names fits.dense, slot?, innermost]
  split
  · rfl
  · cases own : scoping.own with
    | none => simp [Ne.symm (named own)]
    | some other => simp

namespace Fits

variable {scoping : Scoping} {layout other : Layout}

theorem enter (fits : scoping.Fits layout) : scoping.enter.Fits layout.inScope :=
  ⟨fits.names_eq, rfl, fits.dense⟩

theorem congr (fits : scoping.Fits layout) (namesEq : other.names = layout.names)
    (isOutermostEq : other.isOutermost = layout.isOutermost) : scoping.Fits other :=
  ⟨namesEq.trans fits.names_eq, isOutermostEq.trans fits.isOutermost_eq, fits.dense⟩

theorem declare (fits : scoping.Fits layout) (name : String)
    (namesEq : other.names = (if layout.isOutermost then [] else [name]) ++ layout.names)
    (isOutermostEq : other.isOutermost = layout.isOutermost) :
    (scoping.declare name).Fits other := by
  have outermost := fits.isOutermost_eq
  rw [fits.names_eq] at namesEq
  rw [Scoping.declare]
  split
  · next none =>
    rw [none] at outermost
    exact fits.congr (by simp [namesEq, outermost, fits.names_eq]) isOutermostEq
  · next scope outer some =>
    rw [some] at outermost
    have dense := fits.dense.declare name
    rw [Scoping.declare, some] at dense
    refine ⟨?_, isOutermostEq.trans outermost, dense⟩
    rw [namesEq, outermost, locals, some]
    simp [locals]

theorem opens (fits : scoping.Fits layout) (statement : Statement) :
    (statement.opens scoping).Fits (layout.after statement) := by
  induction statement generalizing scoping layout with
  | sequence first rest ihFirst ihRest =>
    refine (ihRest (ihFirst fits)).congr ?_ rfl
    by_cases outermost : layout.isOutermost = true <;>
      simp [Layout.after, Layout.binds, Statement.declared, outermost]
  | varDeclaration name initial => exact fits.declare name rfl rfl
  | funDeclaration name parameters body _ => exact fits.declare name rfl rfl
  | _ =>
    refine fits.congr ?_ rfl
    simp [Layout.after, Layout.binds, Statement.declared]

theorem parameters (fits : scoping.Fits layout) (inside : layout.isOutermost = false)
    (parameters : List String) :
    (parameters.foldl Scoping.declare scoping).Fits
      { layout with names := parameters.reverse ++ layout.names } := by
  induction parameters generalizing scoping layout with
  | nil => exact fits
  | cons name rest ih =>
    have declared : (scoping.declare name).Fits { layout with names := name :: layout.names } :=
      fits.declare name (by simp [inside]) rfl
    refine (ih declared inside).congr ?_ rfl
    simp

end Fits

end Scoping

theorem Declaration.fits_program (body : Statement) :
    (Declaration.program body).entry.Fits .script :=
  ⟨rfl, rfl, trivial⟩

theorem Declaration.fits_function (name : String) (parameters : List String) (body : Statement) :
    (Declaration.mk (some name) parameters body).entry.Fits (.function name parameters) := by
  have start : (Declaration.mk (some name) parameters body).start.Fits (.function name []) :=
    ⟨rfl, rfl, trivial⟩
  exact start.parameters rfl parameters

end StackScript
