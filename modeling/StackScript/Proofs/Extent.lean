import StackScript.Proofs.Rules

/-!
# Extents of code

The code of a tree is as long as the sizes of its parts say, wherever it stands. The size of a
statement depends on its site, which has to tell the truth about the layout.
-/

namespace StackScript

variable {chunk : Chunk Constant} {names : List String} {start stop : Nat}

theorem Chunk.HasAll.stop_eq {opcodes : List Opcode} (found : chunk.HasAll opcodes start stop) :
    stop = start + opcodes.length := by
  induction opcodes generalizing start with
  | nil => exact found
  | cons opcode rest ih =>
    have onward := ih found.2
    rw [List.length_cons]
    omega

theorem Statement.PopsAt.stop_eq {count : Nat} (found : Statement.PopsAt chunk count start stop) :
    stop = start + count := by
  rw [Chunk.HasAll.stop_eq found, List.length_replicate]

namespace Expression

theorem stop_eq_all {arguments : List Expression}
    (each : ∀ argument ∈ arguments, ∀ {start stop : Nat},
      argument.CodeAt chunk names start stop → stop = start + argument.size)
    (code : AllCodeAt chunk names arguments start stop) : stop = start + sizeAll arguments := by
  induction arguments generalizing start with
  | nil => exact code
  | cons first rest ih =>
    rcases code with ⟨middle, codeFirst, codeRest⟩
    have middleEq := each first (by simp) codeFirst
    have stopEq := ih (fun argument later => each argument (by simp [later])) codeRest
    rw [sizeAll]
    omega

theorem stop_eq (expression : Expression) (code : expression.CodeAt chunk names start stop) :
    stop = start + expression.size := by
  induction expression generalizing start stop with
  | number value | string text =>
    rcases code with ⟨_, _, _, rfl⟩
    rfl
  | literal value => exact code.2
  | reference name => exact code.2
  | assign name value ih =>
    rcases code with ⟨valued, codeValue, _, rfl⟩
    have valuedEq := ih codeValue
    rw [size]
    omega
  | unary operator operand ih =>
    rcases code with ⟨operated, codeOperand, _, rfl⟩
    have operatedEq := ih codeOperand
    rw [size]
    omega
  | binary operator left right ihLeft ihRight =>
    rcases code with ⟨first, second, codeLeft, codeRight, found⟩
    have firstEq := ihLeft codeLeft
    have secondEq := ihRight codeRight
    have stopEq := found.stop_eq
    rw [size]
    omega
  | and left right ihLeft ihRight =>
    rcases code with ⟨first, codeLeft, _, _, codeRight⟩
    have firstEq := ihLeft codeLeft
    have stopEq := ihRight codeRight
    rw [size]
    omega
  | or left right ihLeft ihRight =>
    rcases code with ⟨first, codeLeft, _, _, _, codeRight⟩
    have firstEq := ihLeft codeLeft
    have stopEq := ihRight codeRight
    rw [size]
    omega
  | call callee arguments ihCallee ihArguments =>
    rcases code with ⟨called, given, codeCallee, codeArguments, _, rfl⟩
    have calledEq := ihCallee codeCallee
    have givenEq := stop_eq_all (fun argument present => ihArguments argument present) codeArguments
    rw [size]
    omega

end Expression

/-- Whether a site tells the truth about a layout, as far as sizes depend on it. -/
structure Site.Measures (site : Site) (layout : Layout) : Prop where
  names_eq : layout.names = site.names
  outermost_eq : layout.isOutermost = site.isOutermost
  height_eq : layout.loop.map (·.height) = site.loop.map (·.height)

namespace Site.Measures

variable {site : Site} {layout : Layout}

theorem inScope (measures : site.Measures layout) : site.inScope.Measures layout.inScope :=
  ⟨measures.names_eq, rfl, measures.height_eq⟩

theorem after (measures : site.Measures layout) (statement : Statement) :
    (site.after statement).Measures (layout.after statement) := by
  refine ⟨?_, measures.outermost_eq, measures.height_eq⟩
  simp only [Layout.after, Layout.binds, measures.names_eq, measures.outermost_eq]
  rfl

theorem inLoop (measures : site.Measures layout) (inside : site.isOutermost = false)
    (start exit : Nat) : site.inLoop.Measures (layout.inLoop start exit) := by
  refine ⟨measures.names_eq, inside.symm, ?_⟩
  simp only [Layout.inLoop, Site.inLoop, Option.map_some, measures.names_eq]

theorem surplus_eq (measures : site.Measures layout) {loop : LoopPlace}
    (inLoop : layout.loop = some loop) :
    site.surplus = layout.names.length - loop.height := by
  have heightEq := measures.height_eq
  rw [inLoop] at heightEq
  rcases Option.map_eq_some_iff.mp heightEq.symm with ⟨other, otherEq, sameHeight⟩
  rw [Site.surplus, otherEq, measures.names_eq]
  exact congrArg _ sameHeight

end Site.Measures

namespace Statement

variable {site : Site} {layout : Layout} {marks : List (Nat × Nat)} {condition : Option Expression}

theorem InitialAt.stop_eq {initial : Option Expression}
    (code : InitialAt chunk names initial start stop) : stop = start + initialSize initial := by
  cases initial with
  | none => exact code.2
  | some value => exact value.stop_eq code

theorem DefinesAt.stop_eq {name : String} (code : DefinesAt chunk layout name start stop)
    (measures : site.Measures layout) : stop = start + site.definingSize := by
  rw [Site.definingSize, ← measures.outermost_eq]
  rw [DefinesAt] at code
  split at code
  · next isOutermost =>
    rcases code with ⟨_, _, _, rfl⟩
    rw [if_pos isOutermost]
  · next inScope =>
    rw [if_neg inScope]
    exact code

theorem ConditionAt.stop_eq {leave : Nat}
    (code : ConditionAt chunk names condition start stop leave) :
    stop = start + conditionSize condition := by
  cases condition with
  | none => exact code
  | some value =>
    rcases code with ⟨tested, codeValue, _, _, rfl⟩
    rw [value.stop_eq codeValue]
    exact Nat.add_assoc _ _ _

theorem IncrementAt.stop_eq {increment : Option Expression} {test again : Nat}
    (code : IncrementAt chunk names test increment start stop again) :
    stop = start + incrementSize increment := by
  cases increment with
  | none => exact code.1
  | some value =>
    rcases code with ⟨advanced, _, codeValue, _, _, rfl, _⟩
    have advancedEq := value.stop_eq codeValue
    change advanced + 4 = start + (value.size + 7)
    omega

theorem ExitAt.stop_eq (code : ExitAt chunk condition start stop) :
    stop = start + exitSize condition := by
  cases condition with
  | none => exact code
  | some value => exact code.2

theorem stop_eq (statement : Statement) (placed : statement.Placed)
    (code : statement.CodeAt chunk layout start stop marks) (measures : site.Measures layout) :
    stop = start + statement.size site := by
  induction statement generalizing layout site start stop marks with
  | empty => exact code.1
  | sequence first rest ihFirst ihRest =>
    rcases code with ⟨middle, _, _, codeFirst, codeRest, _⟩
    have middleEq := ihFirst placed.1 codeFirst measures
    have stopEq := ihRest placed.2 codeRest (measures.after first)
    rw [size]
    omega
  | expression value | print value =>
    rcases code with ⟨valued, codeValue, _, rfl, _⟩
    rw [value.stop_eq codeValue]
    exact Nat.add_assoc _ _ _
  | varDeclaration name initial =>
    rcases code with ⟨valued, codeInitial, defines, _⟩
    have valuedEq := codeInitial.stop_eq
    have stopEq := defines.stop_eq measures
    rw [size]
    omega
  | funDeclaration name parameters body _ =>
    rcases code with ⟨_, _, _, _, _, _, _, _, _, _, _, defines, _⟩
    have stopEq := defines.stop_eq measures
    rw [size]
    omega
  | block body ih =>
    rcases code with ⟨done, _, codeBody, pops, _⟩
    have doneEq := ih placed codeBody measures.inScope
    have stopEq := PopsAt.stop_eq pops
    rw [size]
    omega
  | conditional condition met unmet ihMet ihUnmet =>
    rcases code with ⟨tested, chosen, _, _, codeCondition, _, _, codeMet, _, _, codeUnmet, _⟩
    rcases placed with ⟨placedMet, metDeclares, placedUnmet, _⟩
    have measuresUnmet := measures.after met
    have noneBound : site.after met = site := by
      simp [Site.after, Site.bind, Site.binds, metDeclares]
    rw [noneBound] at measuresUnmet
    have testedEq := condition.stop_eq codeCondition
    have chosenEq := ihMet placedMet codeMet measures
    have stopEq := ihUnmet placedUnmet codeUnmet measuresUnmet
    rw [size]
    omega
  | whileLoop condition body ih =>
    rcases code with ⟨tested, done, _, codeCondition, _, _, codeBody, _, _, rfl, _⟩
    have testedEq := condition.stop_eq codeCondition
    have doneEq := ih placed.1 codeBody (measures.inScope.inLoop rfl _ _)
    rw [size]
    omega
  | forLoop initial condition increment body ihInitial ihBody =>
    rcases code with ⟨test, advance, entry, done, exit, again, _, _, codeInitial, codeCondition,
      codeIncrement, codeBody, _, codeExit, pops, _⟩
    rcases placed with ⟨isClause, placedBody, _⟩
    have testEq := ihInitial (placed_of_isClause isClause) codeInitial measures.inScope
    have advanceEq := codeCondition.stop_eq
    have entryEq := codeIncrement.stop_eq
    have doneEq := ihBody placedBody codeBody ((measures.inScope.after initial).inLoop rfl _ _)
    have exitEq := codeExit.stop_eq
    have stopEq := PopsAt.stop_eq pops
    rw [size]
    omega
  | breakLoop | continueLoop =>
    rcases code with ⟨loop, popped, inLoop, _, pops, _, rfl, _⟩
    rw [size, measures.surplus_eq inLoop, PopsAt.stop_eq pops]
    exact Nat.add_assoc _ _ _
  | returnValue value =>
    cases value with
    | none => exact code.2.1.stop_eq
    | some value =>
      rcases code with ⟨_, valued, codeValue, _, rfl, _⟩
      rw [value.stop_eq codeValue]
      exact Nat.add_assoc _ _ _

end Statement

end StackScript
