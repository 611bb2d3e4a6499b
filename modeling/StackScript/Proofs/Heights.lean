import StackScript.Proofs.Layout

/-!
# Heights

At every instruction of compiled code the number of slots in use is known. A segment of code lists
its instructions with their heights: none takes more than there is, and each goes on inside of the
segment, at its end or at one of its exits, at the height it leaves.
-/

namespace StackScript

variable {names : List String} {kind : DraftKind} {name : String}

namespace Instruction

/-- How many values it takes. -/
def takes : Instruction → Nat
  | ret | negate | logicalNot | print | pop | defineGlobal _ | setGlobal _ | setLocal _
  | jumpIfFalse _ => 1
  | add | subtract | multiply | divide | equal | greater | less => 2
  | call count => count + 1
  | _ => 0

/-- How many values it gives. -/
def gives : Instruction → Nat
  | ret | print | pop | defineGlobal _ | jump _ | loop _ => 0
  | _ => 1

/-- Where the code can go on behind an instruction at `offset`. -/
def nexts (offset : Nat) : Instruction → List Nat
  | ret => []
  | jump distance => [offset + 3 + distance]
  | jumpIfFalse distance => [offset + 3, offset + 3 + distance]
  | loop distance => [offset + 3 - distance]
  | other => [offset + other.size]

/--
Whether what an instruction refers to exists. A program never returns on its own, nor does it
use the slot of its script.
-/
def Refers (chunk : Chunk Constant) (kind : DraftKind) (point : Nat × Nat) : Instruction → Prop
  | constant index => index < chunk.constants.size
  | defineGlobal index | setGlobal index | getGlobal index => ∃ name, chunk.Names index name
  | getLocal slot | setLocal slot => slot < point.2 ∧ (kind = .script → slot ≠ 0)
  | loop distance => distance ≤ point.1 + 3
  | ret => kind = .function
  | _ => True

structure Flows (chunk : Chunk Constant) (kind : DraftKind) (instruction : Instruction)
    (point : Nat × Nat) (reach : List (Nat × Nat)) : Prop where
  enough : instruction.takes < point.2
  refers : instruction.Refers chunk kind point
  onward : ∀ next ∈ instruction.nexts point.1,
    (next, point.2 - instruction.takes + instruction.gives) ∈ reach

theorem Flows.mono {chunk : Chunk Constant} {kind : DraftKind} {instruction : Instruction}
    {point : Nat × Nat} {reach more : List (Nat × Nat)}
    (flows : instruction.Flows chunk kind point reach) (among : ∀ other ∈ reach, other ∈ more) :
    instruction.Flows chunk kind point more :=
  ⟨flows.enough, flows.refers, fun next present => among _ (flows.onward next present)⟩

end Instruction

/-- A segment of code from one point to another, with the points of its instructions. -/
structure Chunk.Segment (chunk : Chunk Constant) (kind : DraftKind) (first last : Nat × Nat)
    (points exits : List (Nat × Nat)) : Prop where
  walk : Walk chunk.code first.1 (points.map (·.1)) last.1
  entry : first ∈ points ++ [last]
  flows : ∀ point ∈ points, ∃ instruction, chunk.Has point.1 instruction ∧
    instruction.Flows chunk kind point (points ++ last :: exits)

namespace Chunk.Segment

variable {chunk : Chunk Constant} {kind : DraftKind} {first middle last : Nat × Nat}
  {points others exits ways : List (Nat × Nat)} {height offset target : Nat}
  {instruction : Instruction}

theorem nil (point : Nat × Nat) : chunk.Segment kind point point [] exits :=
  ⟨.done _, by simp, by simp⟩

theorem append (front : chunk.Segment kind first middle points exits)
    (back : chunk.Segment kind middle last others exits) :
    chunk.Segment kind first last (points ++ others) exits := by
  have entered := back.entry
  simp only [List.mem_append, List.mem_singleton] at entered
  refine ⟨?_, ?_, ?_⟩
  · rw [List.map_append]
    exact front.walk.append back.walk
  · have started := front.entry
    simp only [List.mem_append, List.mem_singleton] at started ⊢
    rcases started with inside | rfl
    · exact Or.inl (Or.inl inside)
    · rcases entered with behind | atEnd
      · exact Or.inl (Or.inr behind)
      · exact Or.inr atEnd
  · intro point present
    rcases List.mem_append.mp present with inFront | inBack
    · rcases front.flows point inFront with ⟨instruction, found, flows⟩
      refine ⟨instruction, found, flows.mono ?_⟩
      intro other reached
      simp only [List.mem_append, List.mem_cons] at reached ⊢
      rcases reached with inside | rfl | outside
      · exact Or.inl (Or.inl inside)
      · rcases entered with behind | atEnd
        · exact Or.inl (Or.inr behind)
        · exact Or.inr (Or.inl atEnd)
      · exact Or.inr (Or.inr outside)
    · rcases back.flows point inBack with ⟨instruction, found, flows⟩
      refine ⟨instruction, found, flows.mono ?_⟩
      intro other reached
      rw [List.append_assoc]
      exact List.mem_append_right _ reached

theorem redirect (segment : chunk.Segment kind first last points exits)
    (among : ∀ exit ∈ exits, exit ∈ points ++ last :: ways) :
    chunk.Segment kind first last points ways := by
  refine ⟨segment.walk, segment.entry, ?_⟩
  intro point present
  rcases segment.flows point present with ⟨instruction, found, flows⟩
  refine ⟨instruction, found, flows.mono ?_⟩
  intro other reached
  rcases List.mem_append.mp reached with inside | outside
  · exact List.mem_append_left _ inside
  · rcases List.mem_cons.mp outside with rfl | away
    · simp
    · exact among other away

theorem widen (segment : chunk.Segment kind first last points exits)
    (among : ∀ exit ∈ exits, exit ∈ ways) : chunk.Segment kind first last points ways :=
  segment.redirect fun exit present => by simp [among exit present]

theorem closed (segment : chunk.Segment kind first last points []) (exits : List (Nat × Nat)) :
    chunk.Segment kind first last points exits :=
  segment.widen (by simp)

theorem single (found : chunk.Has offset instruction) (enough : instruction.takes < height)
    (refers : instruction.Refers chunk kind (offset, height))
    (sized : last.1 = offset + instruction.size) (onward : ∀ next ∈ instruction.nexts offset,
      (next, height - instruction.takes + instruction.gives) ∈ last :: exits) :
    chunk.Segment kind (offset, height) last [(offset, height)] exits := by
  refine ⟨?_, by simp, ?_⟩
  · rw [sized]
    exact .step found (.done _)
  · intro point present
    rw [List.mem_singleton.mp present]
    exact ⟨instruction, found, enough, refers, fun next leads =>
      List.mem_append_right _ (onward next leads)⟩

theorem through (found : chunk.Has offset instruction) (enough : instruction.takes < height)
    (refers : instruction.Refers chunk kind (offset, height))
    (goesOn : instruction.nexts offset = [offset + instruction.size]) :
    chunk.Segment kind (offset, height)
      (offset + instruction.size, height - instruction.takes + instruction.gives)
      [(offset, height)] exits := by
  refine single found enough refers rfl ?_
  simp [goesOn]

theorem operation {opcode : Opcode} (found : chunk.Has offset (opcode.instruction 0))
    (bare : opcode.operandSize = 0) (goesOn : opcode ≠ .ret)
    (enough : (opcode.instruction 0).takes < height) :
    chunk.Segment kind (offset, height)
      (offset + 1, height - (opcode.instruction 0).takes + (opcode.instruction 0).gives)
      [(offset, height)] exits := by
  have sized : (opcode.instruction 0).size = 1 := by
    simp [Opcode.size, bare]
  rw [← sized]
  apply through found enough
  · cases opcode <;> trivial
  · cases opcode <;> first | rfl | exact absurd rfl goesOn | exact absurd bare (by decide)

theorem pop (found : chunk.Has offset .pop) (enough : 0 < height) :
    chunk.Segment kind (offset, height + 1) (offset + 1, height) [(offset, height + 1)] exits :=
  through found (Nat.succ_lt_succ enough) trivial rfl

theorem jumpIfFalse (jumps : chunk.Jumps .jumpIfFalse offset target) (enough : 1 < height) :
    chunk.Segment kind (offset, height) (offset + 3, height) [(offset, height)]
      [(target, height)] := by
  refine single jumps.2 enough trivial rfl ?_
  have same : height - 1 + 1 = height := by omega
  have reached : offset + 3 + (target - (offset + 3)) = target := by
    have behind := jumps.1
    omega
  simp [Opcode.instruction, Instruction.nexts, Instruction.takes, Instruction.gives, same, reached]

theorem jump (jumps : chunk.Jumps .jump offset target) (enough : 0 < height) (behind : Nat) :
    chunk.Segment kind (offset, height) (offset + 3, behind) [(offset, height)]
      [(target, height)] := by
  refine single jumps.2 enough trivial rfl ?_
  have reached : offset + 3 + (target - (offset + 3)) = target := by
    have further := jumps.1
    omega
  simp [Opcode.instruction, Instruction.nexts, Instruction.takes, Instruction.gives, reached]

theorem loop (loops : chunk.LoopsTo offset target) (enough : 0 < height) (behind : Nat) :
    chunk.Segment kind (offset, height) (offset + 3, behind) [(offset, height)]
      [(target, height)] := by
  refine single loops.2 enough ?_ rfl ?_
  · exact Nat.sub_le _ _
  · have reached : offset + 3 - (offset + 3 - target) = target := by
      have before := loops.1
      omega
    simp [Instruction.nexts, Instruction.takes, Instruction.gives, reached]

theorem pops {count start stop : Nat} (found : Statement.PopsAt chunk count start stop)
    (enough : count < height) :
    ∃ points, chunk.Segment kind (start, height) (stop, height - count) points exits := by
  induction count generalizing start height with
  | zero =>
    have same : stop = start := found
    exact ⟨[], same ▸ nil _⟩
  | succ count ih =>
    rcases ih found.2 (show count < height - 1 by omega) with ⟨points, segment⟩
    have here : chunk.Segment kind (start, height) (start + 1, height - 1) _ exits :=
      operation found.1 rfl (by decide) (show 1 < height by omega)
    have heights : height - 1 - count = height - (count + 1) := by omega
    rw [heights] at segment
    exact ⟨_, here.append segment⟩

end Chunk.Segment

/-! ## Expressions -/

/-- Whether slot zero has no name that a program could use, unless it belongs to a function. -/
def Guarded (kind : DraftKind) (names : List String) : Prop :=
  names ≠ [] ∧ (kind = .script → ∃ others, names = others ++ [""])

theorem Guarded.append (guarded : Guarded kind names) (more : List String) :
    Guarded kind (more ++ names) := by
  refine ⟨by simp [guarded.1], ?_⟩
  intro isScript
  rcases guarded.2 isScript with ⟨others, rfl⟩
  exact ⟨more ++ others, by simp⟩

theorem Guarded.length_pos (guarded : Guarded kind names) : 0 < names.length :=
  List.length_pos_iff.mpr guarded.1

theorem slotOf?_lt {slot : Nat} (found : slotOf? name names = some slot) : slot < names.length := by
  induction names with
  | nil => cases found
  | cons entry outer ih =>
    simp only [slotOf?] at found
    split at found
    · cases found
      simp
    · exact Nat.lt_succ_of_lt (ih found)

theorem slotOf?_append_ne_zero {last : String} {others : List String} (different : last ≠ name) :
    slotOf? name (others ++ [last]) ≠ some 0 := by
  induction others with
  | nil => simp [slotOf?, different]
  | cons entry outer ih =>
    simp only [List.cons_append, slotOf?]
    split
    · simp
    · exact ih

theorem Guarded.slot_ne_zero {slot : Nat} (guarded : Guarded kind names)
    (hasName : kind = .script → name ≠ "") (resolved : slotOf? name names = some slot) :
    kind = .script → slot ≠ 0 := by
  rintro isScript rfl
  rcases guarded.2 isScript with ⟨others, rfl⟩
  exact slotOf?_append_ne_zero (hasName isScript).symm resolved

/-- Whether these names are bound to slots in use, and slot zero is guarded. -/
structure Stacked (kind : DraftKind) (names : List String) (height : Nat) : Prop where
  below : names.length ≤ height
  guarded : Guarded kind names

namespace Stacked

variable {kind : DraftKind} {names : List String} {height : Nat}

theorem pos (stacked : Stacked kind names height) : 0 < height :=
  Nat.lt_of_lt_of_le stacked.guarded.length_pos stacked.below

theorem push (stacked : Stacked kind names height) : Stacked kind names (height + 1) :=
  ⟨Nat.le_succ_of_le stacked.below, stacked.guarded⟩

end Stacked

namespace Expression

open Chunk.Segment

variable {chunk : Chunk Constant} {kind : DraftKind} {names : List String} {start stop height : Nat}
  {name : String}

def HasHeights (expression : Expression) : Prop :=
  ∀ {chunk : Chunk Constant} {kind : DraftKind} {names : List String} {start stop height : Nat},
    expression.CodeAt chunk names start stop → Stacked kind names height →
    (kind = .script → expression.Named) →
    ∃ points, chunk.Segment kind (start, height) (stop, height + 1) points []

theorem constant_segment {place : Nat} {constant : Constant}
    (found : chunk.Has start (.constant place)) (held : chunk.constants[place]? = some constant)
    (enough : 0 < height) :
    chunk.Segment kind (start, height) (start + 2, height + 1) [(start, height)] [] :=
  through found enough (Array.getElem?_eq_some_iff.mp held).1 rfl

theorem reference_segment (accesses : chunk.Accesses names name .getLocal .getGlobal start)
    (stacked : Stacked kind names height) (hasName : kind = .script → name ≠ "") :
    chunk.Segment kind (start, height) (start + 2, height + 1) [(start, height)] [] := by
  rcases accesses with ⟨slot, resolved, found⟩ | ⟨_, place, found, named⟩
  · exact through found stacked.pos ⟨Nat.lt_of_lt_of_le (slotOf?_lt resolved) stacked.below,
      stacked.guarded.slot_ne_zero hasName resolved⟩ rfl
  · exact through found stacked.pos ⟨name, named⟩ rfl

theorem assign_segment (accesses : chunk.Accesses names name .setLocal .setGlobal start)
    (stacked : Stacked kind names height) (hasName : kind = .script → name ≠ "") :
    chunk.Segment kind (start, height + 1) (start + 2, height + 1) [(start, height + 1)] [] := by
  have enough : 1 < height + 1 := Nat.succ_lt_succ stacked.pos
  rcases accesses with ⟨slot, resolved, found⟩ | ⟨_, place, found, named⟩
  · exact through found enough ⟨Nat.lt_of_lt_of_le (slotOf?_lt resolved) stacked.push.below,
      stacked.guarded.slot_ne_zero hasName resolved⟩ rfl
  · exact through found enough ⟨name, named⟩ rfl

theorem binary_segment {operator : BinaryOperator}
    (found : chunk.HasAll operator.opcodes start stop)
    (enough : 0 < height) :
    ∃ points, chunk.Segment kind (start, height + 2) (stop, height + 1) points [] := by
  have two : 2 < height + 2 := by omega
  have one : 1 < height + 1 := by omega
  cases operator
  case notEqual | greaterEqual | lessEqual =>
    rcases found with ⟨compares, negates, rfl⟩
    exact ⟨_, (operation compares rfl (by decide) two).append
      (operation negates rfl (by decide) one)⟩
  all_goals
    rcases found with ⟨computes, rfl⟩
    exact ⟨_, operation computes rfl (by decide) two⟩

theorem all_segments {arguments : List Expression}
    (heights : ∀ argument ∈ arguments, argument.HasHeights)
    (code : AllCodeAt chunk names arguments start stop) (stacked : Stacked kind names height)
    (named : kind = .script → AllNamed arguments) :
    ∃ points, chunk.Segment kind (start, height) (stop, height + arguments.length) points [] := by
  induction arguments generalizing start height with
  | nil =>
    have same : stop = start := code
    exact ⟨[], same ▸ nil _⟩
  | cons first rest ih =>
    rcases code with ⟨middle, codeFirst, codeRest⟩
    rcases heights first (by simp) codeFirst stacked (And.left ∘ named) with ⟨points, segment⟩
    rcases ih (fun argument present => heights argument (by simp [present])) codeRest stacked.push
      (And.right ∘ named) with ⟨others, segmentRest⟩
    have total : height + 1 + rest.length = height + (first :: rest).length := by
      simp only [List.length_cons]
      omega
    rw [total] at segmentRest
    exact ⟨_, segment.append segmentRest⟩

theorem hasHeights (expression : Expression) : expression.HasHeights := by
  induction expression with
  | number value | string text =>
    rintro chunk kind names start stop height ⟨place, found, held, rfl⟩ stacked _
    exact ⟨_, constant_segment found held stacked.pos⟩
  | literal value =>
    rintro chunk kind names start stop height ⟨found, rfl⟩ stacked _
    cases value <;> exact ⟨_, operation found rfl (by decide) stacked.pos⟩
  | reference name =>
    rintro chunk kind names start stop height ⟨accesses, rfl⟩ stacked named
    exact ⟨_, reference_segment accesses stacked named⟩
  | assign name value ih =>
    rintro chunk kind names start stop height ⟨valued, code, accesses, rfl⟩ stacked named
    rcases ih code stacked (And.right ∘ named) with ⟨points, segment⟩
    exact ⟨_, segment.append (assign_segment accesses stacked fun isScript =>
      (named isScript).1)⟩
  | unary operator operand ih =>
    rintro chunk kind names start stop height ⟨operated, code, found, rfl⟩ stacked named
    rcases ih code stacked named with ⟨points, segment⟩
    have enough : 1 < height + 1 := Nat.succ_lt_succ stacked.pos
    cases operator <;> exact ⟨_, segment.append (operation found rfl (by decide) enough)⟩
  | binary operator left right ihLeft ihRight =>
    rintro chunk kind names start stop height
      ⟨first, second, codeLeft, codeRight, found⟩ stacked named
    rcases ihLeft codeLeft stacked (And.left ∘ named) with ⟨points, segment⟩
    rcases ihRight codeRight stacked.push (And.right ∘ named) with ⟨others, segmentRight⟩
    rcases binary_segment found stacked.pos with ⟨more, segmentOperator⟩
    exact ⟨_, (segment.append segmentRight).append segmentOperator⟩
  | and left right ihLeft ihRight =>
    rintro chunk kind names start stop height
      ⟨first, codeLeft, jumps, found, codeRight⟩ stacked named
    have enough : 1 < height + 1 := Nat.succ_lt_succ stacked.pos
    rcases ihLeft codeLeft stacked (And.left ∘ named) with ⟨points, segment⟩
    rcases ihRight codeRight stacked (And.right ∘ named) with ⟨others, segmentRight⟩
    have whole := ((segment.closed _).append (jumpIfFalse jumps enough)).append
      ((pop found (Nat.lt_of_succ_lt_succ enough)).append (segmentRight.closed _))
    exact ⟨_, whole.redirect (by simp)⟩
  | or left right ihLeft ihRight =>
    rintro chunk kind names start stop height
      ⟨first, codeLeft, jumpsOver, jumps, found, codeRight⟩ stacked named
    have enough : 1 < height + 1 := Nat.succ_lt_succ stacked.pos
    rcases ihLeft codeLeft stacked (And.left ∘ named) with ⟨points, segment⟩
    rcases ihRight codeRight stacked (And.right ∘ named) with ⟨others, segmentRight⟩
    let ways := [(first + 6, height + 1), (stop, height + 1)]
    have test : chunk.Segment kind _ _ _ ways :=
      (jumpIfFalse jumpsOver enough).widen (by simp [ways])
    have skip : chunk.Segment kind _ (first + 6, height + 1) _ ways :=
      (jump jumps (Nat.zero_lt_succ height) _).widen (by simp [ways])
    have whole := (((segment.closed ways).append test).append skip).append
      ((pop found (Nat.lt_of_succ_lt_succ enough)).append (segmentRight.closed ways))
    exact ⟨_, whole.redirect (by simp [ways])⟩
  | call callee arguments ihCallee ihArguments =>
    rintro chunk kind names start stop height
      ⟨called, given, codeCallee, codeArguments, found, rfl⟩ stacked named
    rcases ihCallee codeCallee stacked (And.left ∘ named) with ⟨points, segment⟩
    rcases all_segments ihArguments codeArguments stacked.push
      (And.right ∘ named) with ⟨others, segmentArguments⟩
    have positive := stacked.pos
    have calls : chunk.Segment kind (given, height + 1 + arguments.length)
        (given + 2, height + 1 + arguments.length - (arguments.length + 1) + 1)
        [(given, height + 1 + arguments.length)] [] :=
      through found (show arguments.length + 1 < height + 1 + arguments.length by omega)
        trivial rfl
    have left : height + 1 + arguments.length - (arguments.length + 1) + 1 = height + 1 := by
      omega
    rw [left] at calls
    exact ⟨_, (segment.append segmentArguments).append calls⟩

end Expression

/-! ## Statements -/

/-- Where the jumps of a loop lead. -/
def Layout.exits (layout : Layout) : List (Nat × Nat) :=
  match layout.loop with
  | none => []
  | some loop => [(loop.start, loop.height), (loop.exit, loop.height)]

/-- Whether slot zero is guarded and lies below the loop around a statement. -/
structure Layout.Secure (layout : Layout) : Prop where
  guarded : Guarded layout.kind layout.names
  loop_pos : ∀ loop, layout.loop = some loop → 0 < loop.height

namespace Layout.Secure

variable {layout : Layout}

theorem length_pos (secure : layout.Secure) : 0 < layout.names.length :=
  secure.guarded.length_pos

theorem stacked (secure : layout.Secure) : Stacked layout.kind layout.names layout.names.length :=
  ⟨Nat.le_refl _, secure.guarded⟩

theorem inScope (secure : layout.Secure) : layout.inScope.Secure :=
  ⟨secure.guarded, secure.loop_pos⟩

theorem after (secure : layout.Secure) (statement : Statement) : (layout.after statement).Secure :=
  ⟨secure.guarded.append _, secure.loop_pos⟩

theorem inLoop (secure : layout.Secure) (start exit : Nat) : (layout.inLoop start exit).Secure := by
  refine ⟨secure.guarded, ?_⟩
  rintro loop ⟨⟩
  exact secure.length_pos

end Layout.Secure

theorem Layout.names_after {layout : Layout} {statement : Statement}
    (declares : statement.declared = []) : (layout.after statement).names = layout.names := by
  simp [Layout.after, Layout.binds, declares]

namespace Statement

open Chunk.Segment

variable {chunk : Chunk Constant} {kind : DraftKind} {names : List String} {layout : Layout}
  {start stop height : Nat} {marks points : List (Nat × Nat)}
  {condition increment : Option Expression} {statement body : Statement}

/-- Whether the code of a statement has known heights, which fit those between statements. -/
def HasHeights (statement : Statement) : Prop :=
  ∀ {chunk : Chunk Constant} {layout : Layout} {start stop : Nat} {marks : List (Nat × Nat)},
    statement.CodeAt chunk layout start stop marks → layout.Secure →
    (layout.kind = .script → statement.Named) →
    ∃ points, chunk.Segment layout.kind (start, layout.names.length)
        (stop, (layout.after statement).names.length) points layout.exits ∧
      ∀ mark ∈ marks, mark ∈ points ++ [(stop, (layout.after statement).names.length)]

theorem ends_mem {exits : List (Nat × Nat)}
    (segment : chunk.Segment kind (start, layout.names.length)
      (stop, (layout.after statement).names.length) points exits) :
    ∀ mark ∈ layout.ends statement start stop,
      mark ∈ points ++ [(stop, (layout.after statement).names.length)] := by
  intro mark present
  simp only [Layout.ends, List.mem_cons, List.not_mem_nil, or_false] at present
  rcases present with rfl | rfl
  · exact segment.entry
  · simp

theorem initial_heights {initial : Option Expression}
    (code : InitialAt chunk names initial start stop) (stacked : Stacked kind names height)
    (named : kind = .script → ∀ value ∈ initial, value.Named) :
    ∃ points, chunk.Segment kind (start, height) (stop, height + 1) points [] := by
  cases initial with
  | some value =>
    exact value.hasHeights code stacked fun isScript => named isScript value rfl
  | none =>
    rcases code with ⟨found, rfl⟩
    exact ⟨_, through found stacked.pos trivial rfl⟩

theorem defines_heights {name : String} (code : DefinesAt chunk layout name start stop)
    (declares : statement.declared = [name]) (positive : 0 < layout.names.length) :
    ∃ points, chunk.Segment kind (start, layout.names.length + 1)
      (stop, (layout.after statement).names.length) points [] := by
  cases outermost : layout.isOutermost with
  | true =>
    simp only [DefinesAt, outermost, if_true] at code
    rcases code with ⟨place, found, named, rfl⟩
    simp only [Layout.after, Layout.binds, outermost, if_true, List.nil_append]
    exact ⟨_, through found (Nat.succ_lt_succ positive) ⟨name, named⟩ rfl⟩
  | false =>
    simp only [DefinesAt, outermost] at code
    have same : stop = start := code
    subst same
    simp only [Layout.after, Layout.binds, outermost, declares]
    exact ⟨[], nil _⟩

theorem condition_heights {leave : Nat} (code : ConditionAt chunk names condition start stop leave)
    (stacked : Stacked kind names height)
    (named : kind = .script → ∀ value ∈ condition, value.Named) :
    ∃ points, chunk.Segment kind (start, height) (stop, height) points
      [(leave, height + if condition.isSome then 1 else 0)] := by
  cases condition with
  | none =>
    have same : stop = start := code
    subst same
    exact ⟨[], nil _⟩
  | some condition =>
    rcases code with ⟨tested, codeTest, jumps, pops, rfl⟩
    rcases condition.hasHeights codeTest stacked
      (fun isScript => named isScript condition rfl) with ⟨points, segment⟩
    have positive := stacked.pos
    exact ⟨_, ((segment.closed _).append (jumpIfFalse jumps (Nat.succ_lt_succ positive))).append
      (pop pops positive)⟩

theorem increment_heights {test again : Nat}
    (code : IncrementAt chunk names test increment start stop again)
    (stacked : Stacked kind names height)
    (named : kind = .script → ∀ value ∈ increment, value.Named) :
    ∃ points, chunk.Segment kind (start, height) (stop, height) points [(test, height)] ∧
      (again = test ∨ (again, height) ∈ points) := by
  cases increment with
  | none =>
    rcases code with ⟨rfl, rfl⟩
    exact ⟨[], nil _, Or.inl rfl⟩
  | some increment =>
    rcases code with ⟨advanced, jumps, codeIncrement, pops, loops, rfl, rfl⟩
    rcases increment.hasHeights codeIncrement stacked
      (fun isScript => named isScript increment rfl) with ⟨points, segment⟩
    have positive := stacked.pos
    let ways := [(advanced + 4, height), (test, height)]
    have across : chunk.Segment kind _ (start + 3, height) _ ways :=
      (jump jumps positive _).widen (by simp [ways])
    have back : chunk.Segment kind _ (advanced + 4, height) _ ways :=
      (loop loops positive _).widen (by simp [ways])
    have around := (segment.closed ways).append ((pop pops positive).append back)
    refine ⟨_, (across.append around).redirect (by simp [ways]), Or.inr ?_⟩
    have entered := segment.entry
    simp only [List.mem_append, List.mem_singleton] at entered ⊢
    rcases entered with inside | atEnd
    · exact Or.inr (Or.inl inside)
    · simp only [Prod.mk.injEq] at atEnd
      omega

theorem exit_heights (code : ExitAt chunk condition start stop) (positive : 0 < height) :
    ∃ points, chunk.Segment kind (start, height + if condition.isSome then 1 else 0)
      (stop, height) points [] := by
  cases condition with
  | none =>
    have same : stop = start := code
    subst same
    exact ⟨[], nil _⟩
  | some condition =>
    rcases code with ⟨pops, rfl⟩
    exact ⟨_, pop pops positive⟩

theorem heights_of_segment {inside : List (Nat × Nat)} (declares : statement.declared = [])
    (segment : chunk.Segment layout.kind (start, layout.names.length) (stop, layout.names.length)
      points layout.exits)
    (within : ∀ mark ∈ inside, mark ∈ points ++ [(stop, layout.names.length)]) :
    ∃ points, chunk.Segment layout.kind (start, layout.names.length)
        (stop, (layout.after statement).names.length) points layout.exits ∧
      ∀ mark ∈ layout.ends statement start stop ++ inside,
        mark ∈ points ++ [(stop, (layout.after statement).names.length)] := by
  have same : (layout.after statement).names = layout.names := Layout.names_after declares
  rw [← same] at within
  have ended : chunk.Segment layout.kind (start, layout.names.length)
      (stop, (layout.after statement).names.length) points layout.exits := by
    rw [same]
    exact segment
  refine ⟨points, ended, ?_⟩
  intro mark present
  rcases List.mem_append.mp present with atEnds | among
  · exact ends_mem ended mark atEnds
  · exact within mark among

theorem heights_of_ends (statement : Statement) (declares : statement.declared = [])
    (segment : chunk.Segment layout.kind (start, layout.names.length) (stop, layout.names.length)
      points layout.exits) :
    ∃ points, chunk.Segment layout.kind (start, layout.names.length)
        (stop, (layout.after statement).names.length) points layout.exits ∧
      ∀ mark ∈ layout.ends statement start stop,
        mark ∈ points ++ [(stop, (layout.after statement).names.length)] := by
  have noneInside : ∀ mark ∈ ([] : List (Nat × Nat)),
      mark ∈ points ++ [(stop, layout.names.length)] := by simp
  simpa using heights_of_segment declares segment noneInside

theorem marks_append {middle last : Nat × Nat} {others exits : List (Nat × Nat)}
    (within : ∀ mark ∈ marks, mark ∈ points ++ [middle])
    (back : chunk.Segment kind middle last others exits) :
    ∀ mark ∈ marks, mark ∈ (points ++ others) ++ [last] := by
  intro mark present
  have entered := back.entry
  have found := within mark present
  simp only [List.mem_append, List.mem_singleton] at entered found ⊢
  rcases found with inside | rfl
  · exact Or.inl (Or.inl inside)
  · rcases entered with behind | atEnd
    · exact Or.inl (Or.inr behind)
    · exact Or.inr atEnd

theorem empty_heights : Statement.empty.HasHeights := by
  rintro chunk layout start stop marks ⟨rfl, rfl⟩ _ _
  rw [Layout.names_after rfl]
  exact ⟨[], nil _, by simp⟩

theorem sequence_heights {first rest : Statement} (firstHeights : first.HasHeights)
    (restHeights : rest.HasHeights) : (Statement.sequence first rest).HasHeights := by
  rintro chunk layout start stop marks ⟨middle, marksFirst, marksRest, codeFirst, codeRest, rfl⟩
    secure named
  rcases firstHeights codeFirst secure (And.left ∘ named) with ⟨points, segment, marked⟩
  rcases restHeights codeRest (secure.after first) (And.right ∘ named) with
    ⟨others, segmentRest, markedRest⟩
  have sameNames : ((layout.after first).after rest).names =
      (layout.after (.sequence first rest)).names := by
    cases outermost : layout.isOutermost <;>
      simp [Layout.after, Layout.binds, declared, outermost]
  rw [sameNames] at segmentRest markedRest
  refine ⟨_, segment.append segmentRest, ?_⟩
  intro mark present
  rcases List.mem_append.mp present with inFirst | inRest
  · exact marks_append marked segmentRest mark inFirst
  · rw [List.append_assoc]
    exact List.mem_append_right _ (markedRest mark inRest)

theorem block_heights (bodyHeights : body.HasHeights) : (Statement.block body).HasHeights := by
  rintro chunk layout start stop marks ⟨done, marksInside, code, found, rfl⟩ secure named
  rcases bodyHeights code secure.inScope named with ⟨points, segment, marked⟩
  have bound : (layout.inScope.after body).names.length =
      body.declared.length + layout.names.length := by
    simp [Layout.after, Layout.binds, Layout.inScope]
  rw [bound] at segment marked
  have positive := secure.length_pos
  rcases pops found (show _ < body.declared.length + layout.names.length by omega) with
    ⟨others, segmentPops⟩
  rw [Nat.add_sub_cancel_left] at segmentPops
  exact heights_of_segment rfl (segment.append segmentPops) (marks_append marked segmentPops)

theorem conditional_heights {condition : Expression} {met unmet : Statement}
    (metHeights : met.HasHeights) (metDeclares : met.declared = [])
    (unmetHeights : unmet.HasHeights) (unmetDeclares : unmet.declared = []) :
    (Statement.conditional condition met unmet).HasHeights := by
  rintro chunk layout start stop marks ⟨tested, chosen, marksMet, marksUnmet, codeTest, jumps,
    pops, codeMet, skips, popsUnmet, codeUnmet, rfl⟩ secure named
  have positive := secure.length_pos
  rcases condition.hasHeights codeTest secure.stacked (And.left ∘ named) with ⟨test, segmentTest⟩
  rcases metHeights codeMet secure (fun isScript => (named isScript).2.1) with
    ⟨points, segmentMet, markedMet⟩
  rcases unmetHeights codeUnmet (secure.after met) (fun isScript => (named isScript).2.2) with
    ⟨others, segmentUnmet, markedUnmet⟩
  rw [Layout.names_after unmetDeclares, Layout.names_after metDeclares] at segmentUnmet markedUnmet
  rw [Layout.names_after metDeclares] at segmentMet markedMet
  let ways := (chosen + 3, layout.names.length + 1) :: (stop, layout.names.length) :: layout.exits
  have branch : chunk.Segment layout.kind _ _ _ ways :=
    (jumpIfFalse jumps (Nat.succ_lt_succ positive)).widen (by simp [ways])
  have chosenMet : chunk.Segment layout.kind _ _ _ ways :=
    segmentMet.widen (by simp +contextual [ways])
  have skip : chunk.Segment layout.kind _ (chosen + 3, layout.names.length + 1) _ ways :=
    (jump skips positive _).widen (by simp [ways])
  have chosenUnmet : chunk.Segment layout.kind _ _ _ ways :=
    segmentUnmet.widen (by simp +contextual [ways, Layout.exits, Layout.after])
  have front := ((segmentTest.closed ways).append branch).append (pop pops positive)
  have behind := skip.append ((pop popsUnmet positive).append chosenUnmet)
  have whole : chunk.Segment layout.kind _ _ _ layout.exits :=
    (front.append (chosenMet.append behind)).redirect (by simp +contextual [ways])
  refine heights_of_segment rfl whole ?_
  intro mark present
  rcases List.mem_append.mp present with inMet | inUnmet
  · rw [List.append_assoc]
    exact List.mem_append_right _ (marks_append markedMet behind mark inMet)
  · have known := markedUnmet mark inUnmet
    grind

theorem forLoop_segment {test advance entry done exit again leave outside : Nat}
    {initials tests advances rounds leaves drops exits : List (Nat × Nat)}
    (segmentInitial : chunk.Segment kind (start, outside) (test, height) initials exits)
    (segmentTest : chunk.Segment kind (test, height) (advance, height) tests [(done + 3, leave)])
    (segmentAdvance : chunk.Segment kind (advance, height) (entry, height) advances
      [(test, height)])
    (whereAgain : again = test ∨ (again, height) ∈ advances)
    (segmentBody : chunk.Segment kind (entry, height) (done, height) rounds
      [(again, height), (exit, height)])
    (loops : chunk.LoopsTo done again) (positive : 0 < height)
    (segmentLeave : chunk.Segment kind (done + 3, leave) (exit, height) leaves [])
    (segmentDrop : chunk.Segment kind (exit, height) (stop, outside) drops []) :
    ∃ points, chunk.Segment kind (start, outside) (stop, outside) points exits ∧
      (∀ mark ∈ initials ++ [(test, height)], mark ∈ points ++ [(stop, outside)]) ∧
      ∀ mark ∈ rounds ++ [(done, height)], mark ∈ points ++ [(stop, outside)] := by
  let ways := (done + 3, leave) :: (test, height) :: (again, height) :: (exit, height) :: exits
  have started : chunk.Segment kind _ _ _ ways := segmentInitial.widen (by simp +contextual [ways])
  have tested : chunk.Segment kind _ _ _ ways := segmentTest.widen (by simp [ways])
  have advanced : chunk.Segment kind _ _ _ ways := segmentAdvance.widen (by simp [ways])
  have repeated : chunk.Segment kind _ _ _ ways := segmentBody.widen (by simp [ways])
  have back : chunk.Segment kind _ (done + 3, leave) _ ways :=
    (loop loops positive _).widen (by simp [ways])
  have fromDone := back.append ((segmentLeave.closed ways).append (segmentDrop.closed ways))
  have fromTest := tested.append (advanced.append (repeated.append fromDone))
  have atTest := segmentTest.entry
  have atAdvance := segmentAdvance.entry
  have atEntry := segmentBody.entry
  have atLeave := segmentLeave.entry
  have atExit := segmentDrop.entry
  refine ⟨_, (started.append fromTest).redirect ?_, ?_, ?_⟩
  · simp only [ways, List.mem_append, List.mem_cons, List.not_mem_nil, or_false] at *
    grind
  · exact marks_append (fun _ present => present) fromTest
  · intro mark present
    have known := marks_append (fun _ present => present) fromDone mark present
    simp only [List.append_assoc] at known ⊢
    exact List.mem_append_right _ (List.mem_append_right _ (List.mem_append_right _ known))

theorem forLoop_heights {initial : Statement} (initialHeights : initial.HasHeights)
    (bodyHeights : body.HasHeights) (bodyDeclares : body.declared = []) :
    (Statement.forLoop initial condition increment body).HasHeights := by
  rintro chunk layout start stop marks ⟨test, advance, entry, done, exit, again, marksInitial,
    marksInside, codeInitial, codeCondition, codeIncrement, codeBody, loops, codeExit, codePops,
    rfl⟩ secure named
  have secureInside := secure.inScope.after initial
  have positive := secureInside.length_pos
  rcases initialHeights codeInitial secure.inScope (And.left ∘ named) with
    ⟨pointsInitial, segmentInitial, markedInitial⟩
  rcases condition_heights codeCondition secureInside.stacked
    (fun isScript => (named isScript).2.1) with ⟨pointsTest, segmentTest⟩
  rcases increment_heights codeIncrement secureInside.stacked
    (fun isScript => (named isScript).2.2.1) with ⟨pointsAdvance, segmentAdvance, whereAgain⟩
  rcases bodyHeights codeBody (secureInside.inLoop _ _) (fun isScript => (named isScript).2.2.2)
    with ⟨pointsBody, segmentBody, markedBody⟩
  rw [Layout.names_after bodyDeclares] at segmentBody markedBody
  rcases exit_heights codeExit positive with ⟨pointsExit, segmentExit⟩
  have bound : (layout.inScope.after initial).names.length =
      initial.declared.length + layout.names.length := by
    simp [Layout.after, Layout.binds, Layout.inScope]
  have outside := secure.length_pos
  rcases pops codePops (show _ < (layout.inScope.after initial).names.length by omega) with
    ⟨pointsPops, segmentPops⟩
  rw [show (layout.inScope.after initial).names.length - initial.declared.length =
    layout.names.length by omega] at segmentPops
  rcases forLoop_segment segmentInitial segmentTest segmentAdvance whereAgain segmentBody loops
    positive segmentExit segmentPops with ⟨points, whole, initialsMarked, roundsMarked⟩
  refine heights_of_segment rfl whole ?_
  intro mark present
  rcases List.mem_append.mp present with inInitial | inBody
  · exact initialsMarked mark (markedInitial mark inInitial)
  · exact roundsMarked mark (markedBody mark inBody)

theorem leave_heights {popped : Nat} {loop : LoopPlace} (secure : layout.Secure)
    (inLoop : layout.loop = some loop) (below : loop.height ≤ layout.names.length)
    (found : PopsAt chunk (layout.names.length - loop.height) start popped) :
    0 < loop.height ∧ ∃ points, chunk.Segment layout.kind (start, layout.names.length)
      (popped, loop.height) points layout.exits := by
  have positive := secure.loop_pos loop inLoop
  have outside := secure.length_pos
  rcases pops found (show _ < layout.names.length by omega) with ⟨points, segment⟩
  rw [show layout.names.length - (layout.names.length - loop.height) = loop.height by omega]
    at segment
  exact ⟨positive, points, segment⟩

/-- The code of a statement has known heights, which fit those between statements. -/
theorem hasHeights (statement : Statement) (placed : statement.Placed) : statement.HasHeights := by
  induction statement with
  | empty => exact empty_heights
  | sequence first rest ihFirst ihRest =>
    exact sequence_heights (ihFirst placed.1) (ihRest placed.2)
  | expression value =>
    rintro chunk layout start stop marks ⟨valued, code, found, rfl, rfl⟩ secure named
    rcases value.hasHeights code secure.stacked named with ⟨points, segment⟩
    have whole := segment.append (pop found secure.length_pos)
    exact heights_of_ends (.expression value) rfl (whole.closed _)
  | print value =>
    rintro chunk layout start stop marks ⟨valued, code, found, rfl, rfl⟩ secure named
    rcases value.hasHeights code secure.stacked named with ⟨points, segment⟩
    have prints : chunk.Segment layout.kind (valued, layout.names.length + 1)
        (valued + 1, layout.names.length) _ [] :=
      through found (Nat.succ_lt_succ secure.length_pos) trivial rfl
    exact heights_of_ends (.print value) rfl ((segment.append prints).closed _)
  | varDeclaration name initial =>
    rintro chunk layout start stop marks ⟨valued, code, defines, rfl⟩ secure named
    rcases initial_heights code secure.stacked named with ⟨points, segment⟩
    have declares : (varDeclaration name initial).declared = [name] := rfl
    rcases defines_heights defines declares secure.length_pos with ⟨others, segmentDefine⟩
    have whole := segment.append segmentDefine
    exact ⟨_, whole.closed _, ends_mem whole⟩
  | funDeclaration name parameters body _ =>
    rintro chunk layout start stop marks ⟨place, function, done, marksInside, found, held, _, _,
      _, _, _, defines, rfl⟩ secure _
    have loads : chunk.Segment layout.kind _ _ _ [] :=
      Expression.constant_segment found held secure.length_pos
    have declares : (funDeclaration name parameters body).declared = [name] := rfl
    rcases defines_heights defines declares secure.length_pos with ⟨others, segmentDefine⟩
    have whole := loads.append segmentDefine
    exact ⟨_, whole.closed _, ends_mem whole⟩
  | block body ih => exact block_heights (ih placed)
  | conditional condition met unmet ihMet ihUnmet =>
    exact conditional_heights (ihMet placed.1) placed.2.1 (ihUnmet placed.2.2.1) placed.2.2.2
  | whileLoop condition body ih =>
    intro chunk layout start stop marks code secure named
    refine forLoop_heights empty_heights (ih placed.1) placed.2 (codeAt_whileLoop.mp code) secure ?_
    exact fun isScript => ⟨trivial, by simpa using (named isScript).1, by simp, (named isScript).2⟩
  | forLoop initial condition increment body ihInitial ihBody =>
    exact forLoop_heights (ihInitial (placed_of_isClause placed.1)) (ihBody placed.2.1) placed.2.2
  | breakLoop =>
    rintro chunk layout start stop marks ⟨loop, popped, inLoop, below, found, jumps, rfl, rfl⟩
      secure _
    rcases leave_heights secure inLoop below found with ⟨positive, points, segment⟩
    have leaves : chunk.Segment layout.kind _ (popped + 3, layout.names.length) _ layout.exits :=
      (jump jumps positive _).widen (by simp [Layout.exits, inLoop])
    exact heights_of_ends .breakLoop rfl (segment.append leaves)
  | continueLoop =>
    rintro chunk layout start stop marks ⟨place, popped, inLoop, below, found, loops, rfl, rfl⟩
      secure _
    rcases leave_heights secure inLoop below found with ⟨positive, points, segment⟩
    have repeats : chunk.Segment layout.kind _ (popped + 3, layout.names.length) _ layout.exits :=
      (loop loops positive _).widen (by simp [Layout.exits, inLoop])
    exact heights_of_ends .continueLoop rfl (segment.append repeats)
  | returnValue value =>
    cases value with
    | none =>
      rintro chunk layout start stop marks ⟨inFunction, ⟨loads, returns, rfl⟩, rfl⟩ secure _
      have positive := secure.length_pos
      have loadsNil : chunk.Segment layout.kind (start, layout.names.length)
          (start + 1, layout.names.length + 1) _ layout.exits :=
        through loads positive trivial rfl
      have leaves : chunk.Segment layout.kind (start + 1, layout.names.length + 1)
          (start + 1 + 1, layout.names.length) _ layout.exits :=
        single returns (Nat.succ_lt_succ positive) inFunction rfl
          (by simp [Opcode.instruction, Instruction.nexts])
      exact heights_of_ends (.returnValue none) rfl (loadsNil.append leaves)
    | some value =>
      rintro chunk layout start stop marks ⟨inFunction, valued, code, returns, rfl, rfl⟩ secure
        named
      have positive := secure.length_pos
      rcases value.hasHeights code secure.stacked
        (fun isScript => named isScript value rfl) with ⟨points, segment⟩
      have leaves : chunk.Segment layout.kind (valued, layout.names.length + 1)
          (valued + 1, layout.names.length) _ layout.exits :=
        single returns (Nat.succ_lt_succ positive) inFunction rfl (by simp [Instruction.nexts])
      exact heights_of_ends (.returnValue (some value)) rfl ((segment.closed _).append leaves)

end Statement

end StackScript
