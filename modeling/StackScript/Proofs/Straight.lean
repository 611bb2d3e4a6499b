import StackScript.Proofs.Compiled
import StackScript.Proofs.Orders

/-!
# Code that leads forward

Only loops are written with jumps back. So the code of a program without loops leads forward all the
way, and so does that of every function that it can load.
-/

namespace StackScript

open List (forall_mem_append forall_mem_cons forall_mem_nil forall_mem_singleton)

namespace Instruction

theorem lt_of_mem_nexts {instruction : Instruction} {offset next : Nat}
    (forward : instruction.isLoop = false) (leads : next ∈ instruction.nexts offset) :
    offset < next := by
  cases instruction with
  | loop distance => cases forward
  | ret => cases leads
  | _ =>
    simp [nexts, size, opcode, Opcode.size, Opcode.operandSize] at leads
    omega

end Instruction

/--
Whether the code between two offsets leads forward. The functions that it loads have to lead
forward from their start to their end.
-/
inductive Chunk.Straight : Chunk Constant → Nat → Nat → Prop where
  | done {chunk : Chunk Constant} (stop : Nat) : Straight chunk stop stop
  | step {chunk : Chunk Constant} {start stop : Nat} {instruction : Instruction}
      (found : chunk.Has start instruction) (forward : instruction.isLoop = false)
      (loads : ∀ (place : Nat) (function : Function), instruction = .constant place →
        chunk.constants[place]? = some (.function function) →
        Straight function.chunk 0 function.chunk.size)
      (onward : Straight chunk (start + instruction.size) stop) : Straight chunk start stop

/-- Whether a function leads forward from its start to its end. -/
def Function.Straight (function : Function) : Prop :=
  function.chunk.Straight 0 function.chunk.size

/-- Whether loaded functions lead forward. -/
def Chunk.LoadsStraight (chunk : Chunk Constant) (instruction : Instruction) : Prop :=
  ∀ (place : Nat) (function : Function), instruction = .constant place →
    chunk.constants[place]? = some (.function function) → function.Straight

namespace Chunk.Straight

variable {chunk : Chunk Constant} {start stop : Nat} {instruction : Instruction}

theorem of_mem {offset : Nat} {offsets : List Nat} (straight : chunk.Straight start stop)
    (walk : Walk chunk.code start offsets stop) (present : offset ∈ offsets)
    (found : chunk.Has offset instruction) :
    instruction.isLoop = false ∧ chunk.LoadsStraight instruction := by
  induction walk with
  | done => cases present
  | @step start stop offsets passed reads onward ih =>
    have longer : 0 < passed.size := Opcode.size_pos passed.opcode
    cases straight with
    | done =>
      have behind := onward.le
      omega
    | step foundHere forward loads rest =>
      cases Chunk.Typing.has_unique foundHere reads
      rcases List.mem_cons.mp present with rfl | later
      · cases Chunk.Typing.has_unique found foundHere
        exact ⟨forward, loads⟩
      · exact ih rest later

end Chunk.Straight

/-! ## Orders -/

/--
Whether an order does not lead back. A function that is loaded has to lead forward from its start to
its end.
-/
def Order.Forward : Order → Prop
  | plain instruction => instruction.isLoop = false
  | function _ name parameters body => ∀ (function : Function) (marks : List (Nat × Nat)),
    function.chunk.Implements (.function name parameters) body marks → function.Straight
  | _ => True

theorem Chunk.Straight.of_holds {chunk : Chunk Constant} {before start stop : Nat}
    {orders : List Order} (holds : chunk.Holds before orders start stop)
    (forward : ∀ order ∈ orders, order.Forward) : chunk.Straight start stop := by
  induction orders generalizing start with
  | nil =>
    cases holds
    exact .done _
  | cons order rest ih =>
    rcases holds with ⟨instruction, found, stands, onward⟩
    have onward := ih onward fun other later => forward other (by simp [later])
    have here := forward order (by simp)
    cases stands with
    | plain noPool =>
      refine .step found here ?_ onward
      rintro place _ rfl
      cases noPool
    | load plain held =>
      refine .step found rfl ?_ onward
      rintro _ function ⟨⟩ heldToo
      rw [held] at heldToo
      cases heldToo
      cases plain
    | function held _ _ _ implements =>
      refine .step found rfl ?_ onward
      rintro _ function ⟨⟩ heldToo
      rw [held] at heldToo
      cases heldToo
      exact here _ _ implements
    | _ => exact .step found rfl (by rintro _ _ ⟨⟩) onward

theorem Order.forward_of_isInner {order : Order} (inner : order.isInner = true) :
    order.Forward := by
  cases order with
  | plain instruction => cases instruction <;> first | rfl | cases inner
  | function => cases inner
  | _ => trivial

theorem Expression.forward_orders {names : List String} (expression : Expression) :
    ∀ order ∈ expression.orders names, order.Forward :=
  fun order present => order.forward_of_isInner (expression.inner order present)

/-! ## Statements -/

namespace Statement

/-- Whether no loop stands in a statement, nor in the functions that it declares. -/
def LoopFree : Statement → Prop
  | sequence first rest => first.LoopFree ∧ rest.LoopFree
  | funDeclaration _ _ body => body.LoopFree
  | block body => body.LoopFree
  | conditional _ met unmet => met.LoopFree ∧ unmet.LoopFree
  | whileLoop _ _ => False
  | forLoop _ _ _ _ => False
  | _ => True

theorem forward_defines (site : Site) (name : String) :
    ∀ order ∈ site.defines name, order.Forward := by
  rw [Site.defines]
  split <;> simp [Order.Forward]

theorem forward_pops (count : Nat) :
    ∀ order ∈ List.replicate count (Order.plain .pop), order.Forward := by
  intro order present
  rw [List.eq_of_mem_replicate present]
  rfl

theorem straight_of_implements {function : Function} {site : Site} {layout : Layout}
    {body : Statement} {marks : List (Nat × Nat)} (placed : body.Placed)
    (implements : function.chunk.Implements layout body marks)
    (locates : site.Locates layout 0 0 0 0)
    (forward : ∀ order ∈ body.orders site 0 0, order.Forward) : function.Straight := by
  refine .of_holds (implements.holds placed locates) (forall_mem_append.mpr ⟨forward, ?_⟩)
  simp [Order.Forward, Instruction.isLoop]

/-- Outside of a loop, a statement without loops leads forward. -/
theorem forward_orders (statement : Statement) (placed : statement.Placed)
    (free : statement.LoopFree) {site : Site} (outside : site.loop = none) (functions ahead : Nat) :
    ∀ order ∈ statement.orders site functions ahead, order.Forward := by
  induction statement generalizing site functions ahead with
  | empty => exact forall_mem_nil _
  | sequence first rest ihFirst ihRest =>
    exact forall_mem_append.mpr ⟨ihFirst placed.1 free.1 outside _ _,
      ihRest placed.2 free.2 (congrArg (Option.map _) outside) _ _⟩
  | expression value | print value =>
    exact forall_mem_append.mpr ⟨value.forward_orders, forall_mem_singleton.mpr rfl⟩
  | varDeclaration name initial =>
    refine forall_mem_append.mpr ⟨?_, forward_defines site name⟩
    cases initial with
    | none => exact forall_mem_singleton.mpr rfl
    | some value => exact value.forward_orders
  | funDeclaration name parameters body ih =>
    refine forall_mem_cons.mpr ⟨?_, forward_defines site name⟩
    have placedBody : body.Placed := placed
    have outsideBody : (Site.function name parameters).loop = none := rfl
    intro function marks implements
    exact straight_of_implements placedBody implements (.function name parameters)
      (ih placedBody free outsideBody 0 0)
  | block body ih =>
    have outsideBody : site.inScope.loop = none := outside
    exact forall_mem_append.mpr ⟨ih placed free outsideBody _ _, forward_pops _⟩
  | conditional condition met unmet ihMet ihUnmet =>
    rcases placed with ⟨placedMet, _, placedUnmet, _⟩
    simp only [orders, forall_mem_append, forall_mem_cons]
    exact ⟨condition.forward_orders, rfl, rfl,
      ihMet placedMet free.1 (congrArg (Option.map _) outside) _ _, rfl, rfl,
      ihUnmet placedUnmet free.2 (congrArg (Option.map _) outside) _ _⟩
  | whileLoop => exact free.elim
  | forLoop => exact free.elim
  | breakLoop | continueLoop =>
    rw [orders, outside]
    exact forall_mem_nil _
  | returnValue value =>
    cases value with
    | none => simp [orders, resultOrders, Order.Forward, Instruction.isLoop]
    | some value =>
      exact forall_mem_append.mpr ⟨value.forward_orders, forall_mem_singleton.mpr rfl⟩

end Statement

/-! ## Programs -/

/-- Whether no word that starts a loop stands in a text. -/
def LoopFree (text : String) : Prop :=
  ∀ token ∈ tokens text, token.kind ≠ .keyword .whileKw ∧ token.kind ≠ .keyword .forKw

/-- Without those words there are no loops. -/
theorem Grammar.Phrase.loopFree {category : Category} {tokens : List Token} {statement : Statement}
    {depth : Nat} (phrase : Phrase category tokens statement depth)
    (free : ∀ token ∈ tokens, token.kind ≠ .keyword .whileKw ∧ token.kind ≠ .keyword .forKw) :
    statement.LoopFree := by
  induction phrase with
  | whileLoop introduces => exact (free _ (by simp)).1 introduces
  | forLoop introduces => exact (free _ (by simp)).2 introduces
  | _ => simp_all [Statement.LoopFree]

/-- A program without loops leads forward. -/
theorem Function.straight_of_compile {text : String} {script : Function} (free : LoopFree text)
    (compiled : compile text = .ok script) : script.Straight := by
  rcases laid_of_compile compiled with ⟨program, stops, derives, _, laid⟩
  rcases derives with ⟨_, front, ending, tokensEq, _, phrase⟩
  have programFree : program.LoopFree := by
    refine phrase.loopFree fun token present => free token ?_
    rw [tokensEq]
    exact List.mem_append_left _ present
  exact Statement.straight_of_implements laid.placed laid.implements .script
    (program.forward_orders laid.placed programFree rfl 0 0)

end StackScript
