import StackScript.Proofs.Building
import StackScript.Proofs.Placement.Stretch

/-!
# Tables of locals, scopes and names

Scopes are numbered from the outermost one on, locals belong to scopes that are open, and two locals
of one scope have different names. Only the innermost local may be without a value. There is one
lemma for each way in which the compiler changes a function.
-/

namespace StackScript

open Compile

/-- Whether these locals, which all have a value, are open inside of `depth` scopes. -/
inductive Local.Stacked : Nat → List Local → Prop where
  | bottom (name : String) : Stacked 0 [⟨name, some 0⟩]
  | scope {depth : Nat} {locals : List Local} (outer : Stacked depth locals) :
      Stacked (depth + 1) locals
  | declared {depth : Nat} {locals : List Local} {name : String}
      (outer : Stacked (depth + 1) locals) (fresh : ⟨name, some (depth + 1)⟩ ∉ locals) :
      Stacked (depth + 1) (⟨name, some (depth + 1)⟩ :: locals)

/-- Whether locals are open inside of `depth` scopes, the innermost one maybe without a value. -/
inductive Local.Tabled : Nat → List Local → Prop where
  | closed {depth : Nat} {locals : List Local} (stacked : Stacked depth locals) :
      Tabled depth locals
  | waiting {depth : Nat} {locals : List Local} {name : String}
      (outer : Stacked (depth + 1) locals) (fresh : ⟨name, some (depth + 1)⟩ ∉ locals) :
      Tabled (depth + 1) (⟨name, none⟩ :: locals)

/-- Whether an instruction starts there. -/
def Chunk.Boundary (chunk : Chunk Constant) (offset : Nat) : Prop :=
  offset ≤ chunk.size ∧ (offset = chunk.size ∨ offset ∈ chunk.starts)

/-- Whether the word at `offset` is the missing distance of a jump. -/
def Chunk.Unfilled (chunk : Chunk Constant) (offset : Nat) : Prop :=
  ∃ start ∈ chunk.starts, offset = start + 1 ∧
    Instruction.Stands chunk.code start .jump placeholder

/-- Whether only a loop is left, by jumps without a distance, and goes on at an instruction. -/
structure Scope.InOrder (chunk : Chunk Constant) (scope : Scope) : Prop where
  breaks : ∀ jump ∈ scope.breaks, scope.kind = .loop ∧ chunk.Unfilled jump
  loopStart : chunk.Boundary scope.loopStart

structure Chunk.Onto (chunk later : Chunk Constant) : Prop where
  size_le : chunk.size ≤ later.size
  boundary : ∀ offset, chunk.Boundary offset → later.Boundary offset
  constants : ∀ (place : Nat) (constant : Constant), chunk.constants[place]? = some constant →
    later.constants[place]? = some constant

namespace Draft

def breaks (draft : Draft) : List Nat :=
  draft.scopes.flatMap Scope.breaks

structure Tidy (draft : Draft) : Prop where
  nested : Scope.Nested draft.scopes
  few : draft.locals.length ≤ maxLocals
  tabled : Local.Tabled draft.depth draft.locals
  scopes : ∀ scope ∈ draft.scopes, scope.InOrder draft.chunk
  apart : draft.breaks.Pairwise Apart
  names : ∀ (name : String) (place : UInt8), draft.names[name]? = some place →
    draft.chunk.Names place.toNat name
  room : draft.chunk.constants.size ≤ Chunk.maxConstants

/-- Whether all locals have values. -/
abbrev Closed (draft : Draft) : Prop :=
  Local.Stacked draft.depth draft.locals

/-- Whether a draft was written from another one, with no more done to it than `mode` allows. -/
structure Onward (mode : Mode) (before after : Draft) : Prop where
  tidy : after.Tidy
  onto : before.chunk.Onto after.chunk
  breaks : ∀ jump ∈ after.breaks, jump ∈ before.breaks ∨ before.chunk.size < jump
  closed : mode.closes = true → after.Closed
  frame : mode.keeps = true → before.SameFrame after

end Draft

/-! ## Code -/

namespace Chunk

variable {chunk middle later : Chunk Constant} {offset : Nat}

theorem Unfilled.inside (unfilled : chunk.Unfilled offset) : offset + 2 ≤ chunk.size := by
  rcases unfilled with ⟨start, _, rfl, stands⟩
  exact (Array.getElem?_eq_some_iff.mp (stands 2 _ rfl)).1

theorem Onto.refl : chunk.Onto chunk :=
  ⟨Nat.le_refl _, fun _ reached => reached, fun _ _ found => found⟩

theorem Onto.trans (first : chunk.Onto middle) (second : middle.Onto later) : chunk.Onto later where
  size_le := Nat.le_trans first.size_le second.size_le
  boundary offset reached := second.boundary offset (first.boundary offset reached)
  constants place constant found :=
    second.constants place constant (first.constants place constant found)

theorem Onto.write (opcode : Opcode) (operand line : Nat) :
    chunk.Onto (chunk.write opcode operand line) where
  size_le := by simp
  boundary offset reached := by
    refine ⟨Nat.le_trans reached.1 (by simp), .inr ?_⟩
    rcases reached.2 with rfl | present
    · exact Array.mem_push_self
    · exact Array.mem_push_of_mem _ present
  constants _ _ found := found

theorem Onto.patchWord (offset word : Nat) : chunk.Onto (chunk.patchWord offset word) where
  size_le := by simp
  boundary _ reached := by
    rw [Boundary, size_patchWord]
    exact reached
  constants _ _ found := found

theorem Onto.hold (constant : Constant) :
    chunk.Onto { chunk with constants := chunk.constants.push constant } where
  size_le := Nat.le_refl _
  boundary _ reached := reached
  constants place held found := by
    rw [Array.getElem?_push, if_neg (Nat.ne_of_lt (Array.getElem?_eq_some_iff.mp found).1)]
    exact found

theorem Unfilled.write (unfilled : chunk.Unfilled offset) (opcode : Opcode) (operand line : Nat) :
    (chunk.write opcode operand line).Unfilled offset := by
  rcases unfilled with ⟨start, present, offsetEq, stands⟩
  refine ⟨start, Array.mem_push_of_mem _ present, offsetEq, fun place byte found => ?_⟩
  have inCode := stands place byte found
  rw [Chunk.write, Array.getElem?_append_left (Array.getElem?_eq_some_iff.mp inCode).1]
  exact inCode

theorem Unfilled.patchWord {other : Nat} (unfilled : chunk.Unfilled offset)
    (apart : Apart other offset) (word : Nat) : (chunk.patchWord other word).Unfilled offset := by
  rcases unfilled with ⟨start, present, rfl, stands⟩
  refine ⟨start, present, rfl, fun place byte found => ?_⟩
  have short : place < 3 := (List.getElem?_eq_some_iff.mp found).1
  rw [Apart] at apart
  rw [getElem?_patchWord (by omega) (by omega)]
  exact stands place byte found

end Chunk

/-! ## Locals -/

namespace Local.Stacked

variable {depth : Nat} {locals : List Local}

theorem exists_depth (stacked : Stacked depth locals) :
    ∀ entry ∈ locals, ∃ own ≤ depth, entry.depth = some own := by
  induction stacked with
  | bottom name => exact List.forall_mem_singleton.mpr ⟨0, Nat.le_refl _, rfl⟩
  | scope outer ih =>
    intro entry present
    rcases ih entry present with ⟨own, le, depthEq⟩
    exact ⟨own, Nat.le_succ_of_le le, depthEq⟩
  | declared outer fresh ih => exact List.forall_mem_cons.mpr ⟨⟨_, Nat.le_refl _, rfl⟩, ih⟩

theorem close {inner : Nat} (stacked : Stacked inner locals) (innerEq : inner = depth + 1) :
    Stacked depth (locals.dropWhile (·.isOpenFrom (depth + 1))) := by
  induction stacked with
  | bottom name => cases innerEq
  | @scope _ locals outer _ =>
    cases innerEq
    cases locals with
    | nil => exact outer
    | cons entry rest =>
      rcases outer.exists_depth entry List.mem_cons_self with ⟨own, le, depthEq⟩
      rw [List.dropWhile_cons_of_neg (by simp [isOpenFrom, depthEq]; omega)]
      exact outer
  | declared _ _ ih =>
    cases innerEq
    rw [List.dropWhile_cons_of_pos (by simp [isOpenFrom])]
    exact ih rfl

theorem declares {name : String} (stacked : Stacked depth locals)
    (present : ⟨name, some depth⟩ ∈ locals) :
    (locals.takeWhile (·.isWithin depth)).any (·.name = name) = true := by
  induction stacked with
  | bottom own => simpa [isWithin, eq_comm] using present
  | scope outer ih =>
    rcases outer.exists_depth _ present with ⟨own, le, depthEq⟩
    cases depthEq
    omega
  | declared _ _ ih =>
    rw [List.takeWhile_cons_of_pos (by simp [isWithin]), List.any_cons]
    rcases List.mem_cons.mp present with same | earlier
    · cases same
      simp
    · simp [ih earlier]

end Local.Stacked

/-! ## Scopes -/

namespace Scope

theorem InOrder.addBreak {scopes : List Scope} {jump : Nat} {chunk : Chunk Constant}
    (each : ∀ scope ∈ scopes, scope.InOrder chunk) (unfilled : chunk.Unfilled jump) :
    ∀ scope ∈ addBreak jump scopes, scope.InOrder chunk := by
  induction scopes with
  | nil => exact each
  | cons innermost outer ih =>
    rcases List.forall_mem_cons.mp each with ⟨here, further⟩
    rw [Scope.addBreak]
    split
    · next isLoop =>
      exact List.forall_mem_cons.mpr
        ⟨⟨List.forall_mem_cons.mpr ⟨⟨isLoop, unfilled⟩, here.breaks⟩, here.loopStart⟩, further⟩
    · exact List.forall_mem_cons.mpr ⟨here, ih further⟩

theorem breaks_addBreak (jump : Nat) (scopes : List Scope) :
    ((addBreak jump scopes).flatMap breaks).Perm (jump :: scopes.flatMap breaks) ∨
      addBreak jump scopes = scopes := by
  induction scopes with
  | nil => exact .inr rfl
  | cons innermost outer ih =>
    rw [addBreak]
    split
    · exact .inl (.refl _)
    · rcases ih with added | same
      · refine .inl ?_
        rw [List.flatMap_cons, List.flatMap_cons]
        exact (added.append_left _).trans List.perm_middle
      · rw [same]
        exact .inr rfl

end Scope

/-! ## Drafts -/

namespace Draft

variable {draft middle after : Draft} {mode mode' : Mode}

theorem Onward.trans (first : draft.Onward mode middle) (second : middle.Onward mode' after)
    (keeps : mode'.keeps = true → mode.keeps = true) : draft.Onward mode' after where
  tidy := second.tidy
  onto := first.onto.trans second.onto
  breaks jump left := by
    rcases second.breaks jump left with earlier | beyond
    · exact first.breaks jump earlier
    · exact .inr (Nat.lt_of_le_of_lt first.onto.size_le beyond)
  closed := second.closed
  frame settled := (first.frame (keeps settled)).trans (second.frame settled)

namespace Tidy

theorem inside (tidy : draft.Tidy) {jump : Nat} (left : jump ∈ draft.breaks) :
    jump + 2 ≤ draft.chunk.size := by
  rcases List.mem_flatMap.mp left with ⟨scope, present, left⟩
  exact ((tidy.scopes scope present).breaks jump left).2.inside

theorem closed_of_outside (tidy : draft.Tidy) (outside : draft.depth = 0) : draft.Closed := by
  have tabled := tidy.tabled
  rw [Closed, outside]
  rw [outside] at tabled
  cases tabled with
  | closed stacked => exact stacked

theorem blank (name own : String) (kind : DraftKind) :
    Tidy ⟨name, 0, .empty, kind, [⟨own, some 0⟩], [], ∅⟩ :=
  ⟨trivial, by simp [maxLocals], .closed (.bottom own),
    fun _ present => absurd present List.not_mem_nil, .nil, fun _ _ known => by simp at known,
    Nat.zero_le _⟩

/-! ### Writing -/

section Writing

variable (tidy : draft.Tidy) (closed : mode.closes = true → draft.Closed)
include tidy closed

theorem rechunk {chunk : Chunk Constant} (onto : draft.chunk.Onto chunk)
    (unfilled : ∀ jump ∈ draft.breaks, draft.chunk.Unfilled jump → chunk.Unfilled jump)
    (room : chunk.constants.size ≤ Chunk.maxConstants) :
    draft.Onward mode { draft with chunk := chunk } where
  tidy := { tidy with
    scopes := fun scope present =>
      ⟨fun jump left => ((tidy.scopes scope present).breaks jump left).imp_right
        (unfilled jump (List.mem_flatMap.mpr ⟨scope, present, left⟩)),
        onto.boundary _ (tidy.scopes scope present).loopStart⟩
    names := fun name place known => onto.constants _ _ (tidy.names name place known)
    room := room }
  onto := onto
  breaks _ := .inl
  closed := closed
  frame _ := ⟨rfl, rfl, rfl⟩

theorem refl : draft.Onward mode draft :=
  tidy.rechunk closed .refl (fun _ _ unfilled => unfilled) tidy.room

theorem write (opcode : Opcode) (operand line : Nat) :
    draft.Onward mode (draft.write opcode operand line) :=
  tidy.rechunk closed (.write opcode operand line)
    (fun _ _ unfilled => unfilled.write opcode operand line) tidy.room

theorem patch {jump : Nat} (apart : ∀ other ∈ draft.breaks, Apart jump other) (word : Nat) :
    draft.Onward mode (draft.patch jump word) :=
  tidy.rechunk closed (.patchWord jump word)
    (fun other left unfilled => unfilled.patchWord (apart other left) word) tidy.room

theorem pool (constant : Constant) (room : draft.chunk.constants.size < Chunk.maxConstants) :
    draft.Onward mode (draft.pool constant) :=
  tidy.rechunk closed (.hold constant) (fun _ _ unfilled => unfilled)
    (Nat.le_trans (Nat.le_of_eq (Array.size_push _)) room)

theorem remember {name : String} {place : UInt8} (named : draft.chunk.Names place.toNat name) :
    draft.Onward mode (draft.remember name place) where
  tidy := { tidy with
    names := fun other index known => by
      simp only [Draft.remember, Std.TreeMap.getElem?_insert] at known
      split at known
      · next same =>
        rw [← Std.LawfulEqCmp.compare_eq_iff_eq.mp same, ← Option.some.inj known]
        exact named
      · exact tidy.names other index known }
  onto := .refl
  breaks _ := .inl
  closed := closed
  frame _ := ⟨rfl, rfl, rfl⟩

end Writing

/-! ### Scopes and locals -/

theorem openScope (tidy : draft.Tidy) (closed : draft.Closed) (kind : ScopeKind) :
    draft.Onward .free (draft.openScope kind) where
  tidy := { tidy with
    nested := ⟨rfl, tidy.nested⟩
    tabled := .closed closed.scope
    scopes := List.forall_mem_cons.mpr ⟨⟨fun _ left => absurd left List.not_mem_nil,
      Nat.le_refl _, .inl rfl⟩, tidy.scopes⟩ }
  onto := .refl
  breaks _ := .inl
  closed _ := closed.scope
  frame := nofun

theorem begun (name : String) : ((Draft.named name).openScope .function).Tidy :=
  (openScope (blank name name .function) (.bottom name) .function).tidy

theorem closeScope (tidy : draft.Tidy) (closed : draft.Closed) {scope : Scope}
    {outer : List Scope} (scopesEq : draft.scopes = scope :: outer) :
    draft.Onward .free ({ draft with scopes := outer }.dropFrom scope.depth) := by
  have nested := tidy.nested
  have apart := tidy.apart
  rw [Draft.Closed, Draft.depth, scopesEq] at closed
  rw [breaks, scopesEq, List.flatMap_cons] at apart
  rw [scopesEq] at nested
  have closes : Local.Stacked outer.length
      (draft.locals.dropWhile (·.isOpenFrom scope.depth)) := nested.1 ▸ closed.close rfl
  exact {
    tidy := { tidy with
      nested := nested.2
      few := Nat.le_trans (List.dropWhile_sublist _).length_le tidy.few
      tabled := .closed closes
      scopes := fun other present =>
        tidy.scopes other (scopesEq ▸ List.mem_cons_of_mem _ present)
      apart := (List.pairwise_append.mp apart).2.1 }
    onto := .refl
    breaks := fun jump left => .inl (by
      rw [breaks, scopesEq, List.flatMap_cons]
      exact List.mem_append_right _ left)
    closed := fun _ => closes
    frame := by rintro ⟨⟩ }

theorem count (tidy : draft.Tidy) (closed : draft.Closed) :
    draft.Onward .free { draft with arity := draft.arity + 1 } :=
  ⟨⟨tidy.nested, tidy.few, tidy.tabled, tidy.scopes, tidy.apart, tidy.names, tidy.room⟩,
    .refl, fun _ => .inl,
    fun _ => closed, nofun⟩

theorem addLocal (tidy : draft.Tidy) (closed : draft.Closed) (inside : 0 < draft.depth)
    {name : String} (fresh : ¬draft.declares name = true)
    (room : draft.locals.length < maxLocals) :
    draft.Onward .loose (draft.addLocal name) where
  tidy := { tidy with
    few := room
    tabled := by
      have unknown : ⟨name, some draft.depth⟩ ∉ draft.locals := fun present =>
        fresh (closed.declares present)
      change Local.Tabled draft.depth (⟨name, none⟩ :: draft.locals)
      rw [Draft.Closed] at closed
      generalize draft.depth = depth at closed inside unknown ⊢
      cases depth with
      | zero => cases inside
      | succ depth => exact .waiting closed unknown }
  onto := .refl
  breaks _ := .inl
  closed := nofun
  frame := nofun

theorem initializeLocal {entry : Local} {outer : List Local} (tidy : draft.Tidy)
    (localsEq : draft.locals = entry :: outer)
    (here : entry.depth = none ∨ entry.depth = some draft.depth) :
    draft.Onward .free draft.initializeLocal := by
  have initializes : draft.initializeLocal =
      { draft with locals := ⟨entry.name, some draft.depth⟩ :: outer } := by
    simp [Draft.initializeLocal, localsEq]
  have stacked : Local.Stacked draft.depth (⟨entry.name, some draft.depth⟩ :: outer) := by
    have tabled := tidy.tabled
    rw [localsEq] at tabled
    generalize draft.depth = depth at tabled here ⊢
    cases tabled with
    | waiting closed fresh => exact .declared closed fresh
    | closed stacked =>
      rcases stacked.exists_depth entry List.mem_cons_self with ⟨own, _, depthEq⟩
      rcases here with waiting | visible
      · cases waiting.symm.trans depthEq
      · rw [← visible]
        exact stacked
  have few := tidy.few
  rw [localsEq] at few
  rw [initializes]
  exact ⟨{ tidy with few := few, tabled := .closed stacked }, .refl, fun _ => .inl,
    fun _ => stacked, nofun⟩

/-! ### Loops -/

theorem setLoopStart (tidy : draft.Tidy) (closed : draft.Closed) {start : Nat}
    (reached : draft.chunk.Boundary start) :
    draft.Onward .free { draft with scopes := Scope.setLoopStart start draft.scopes } := by
  have same : draft.Onward .free draft := tidy.refl fun _ => closed
  rcases draft with ⟨name, arity, chunk, kind, locals, _ | ⟨innermost, outer⟩, names⟩
  · exact same
  · rcases List.forall_mem_cons.mp tidy.scopes with ⟨here, further⟩
    exact { same with
      tidy := { tidy with scopes := List.forall_mem_cons.mpr ⟨⟨here.breaks, reached⟩, further⟩ }
      frame := nofun }

theorem leave (tidy : draft.Tidy) (closed : draft.Closed) (line : Nat) :
    draft.Onward .free
      { draft.write .jump placeholder line with
        scopes := Scope.addBreak (draft.chunk.size + 1) draft.scopes } := by
  have written : draft.Onward .free _ :=
    tidy.write (fun _ => closed) .jump placeholder line
  have each := Scope.InOrder.addBreak written.tidy.scopes
    ⟨_, Array.mem_push_self, rfl, Chunk.stands_write _ _ _ _⟩
  have nested := tidy.nested.addBreak (draft.chunk.size + 1)
  have lengthEq := Scope.length_addBreak (draft.chunk.size + 1) draft.scopes
  have added := Scope.breaks_addBreak (draft.chunk.size + 1) draft.scopes
  change ∀ scope ∈ Scope.addBreak (draft.chunk.size + 1) draft.scopes, _ at each
  generalize Scope.addBreak (draft.chunk.size + 1) draft.scopes = scopes at *
  have apart : (scopes.flatMap Scope.breaks).Pairwise Apart ∧
      ∀ jump ∈ scopes.flatMap Scope.breaks, jump ∈ draft.breaks ∨ draft.chunk.size < jump := by
    rcases added with added | rfl
    · refine ⟨(added.pairwise_iff Or.symm).mpr (List.pairwise_cons.mpr ⟨?_, tidy.apart⟩), ?_⟩
      · exact fun other left => .inr (Nat.succ_le_succ (tidy.inside left))
      · intro jump left
        rcases List.mem_cons.mp (added.mem_iff.mp left) with rfl | earlier
        · exact .inr (Nat.lt_succ_self _)
        · exact .inl earlier
    · exact ⟨tidy.apart, fun _ => .inl⟩
  have depthEq : draft.depth = scopes.length := lengthEq.symm
  have tabled := tidy.tabled
  rw [Draft.Closed, depthEq] at closed
  rw [depthEq] at tabled
  exact ⟨⟨nested, tidy.few, tabled, each, apart.1, tidy.names, tidy.room⟩, written.onto, apart.2,
    fun _ => closed, nofun⟩

end Tidy

end Draft

end StackScript
