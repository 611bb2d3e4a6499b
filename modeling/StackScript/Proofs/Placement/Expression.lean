import StackScript.Proofs.Placement.Stretch

/-!
# Expressions in the final code

The code of an expression stands in the final code where it was written. Names are resolved against
the locals that are initialized.
-/

namespace StackScript

open Draft (Wrote)
open Compile

/-- Whether these are the locals at hand. -/
def Draft.Shows (draft : Draft) (names : List String) : Prop :=
  ∃ pending shown : List Local, draft.locals = pending ++ shown ∧
    (∀ entry ∈ pending, entry.depth = none) ∧ (∀ entry ∈ shown, entry.depth ≠ none) ∧
    shown.map (·.name) = names

theorem Draft.SameFrame.shows {before after : Draft} {names : List String}
    (frame : before.SameFrame after) (shows : before.Shows names) : after.Shows names := by
  rw [Draft.Shows, frame.locals_eq]
  exact shows

namespace Local

variable {name : String}

theorem resolve?_eq_slotOf? (name : String) (locals : List Local) :
    (resolve? name locals).map Prod.fst = slotOf? name (locals.map (·.name)) := by
  induction locals with
  | nil => rfl
  | cons entry outer ih =>
    simp only [resolve?, slotOf?, List.map_cons]
    split
    · simp
    · exact ih

theorem resolve?_append {pending shown : List Local}
    (uninitialized : ∀ entry ∈ pending, entry.depth = none)
    (usable : ∀ slot entry, resolve? name (pending ++ shown) = some (slot, entry) →
      entry.depth ≠ none) : resolve? name (pending ++ shown) = resolve? name shown := by
  induction pending with
  | nil => rfl
  | cons entry outer ih =>
    simp only [List.cons_append, resolve?] at usable ⊢
    by_cases same : entry.name = name
    · rw [if_pos same] at usable
      exact absurd (uninitialized entry (by simp)) (usable _ _ rfl)
    · rw [if_neg same] at usable ⊢
      exact ih (fun other present => uninitialized other (by simp [present])) usable

theorem resolve?_lt {locals : List Local} {slot : Nat} {entry : Local}
    (found : resolve? name locals = some (slot, entry)) : slot < locals.length := by
  induction locals with
  | nil => cases found
  | cons other outer ih =>
    simp only [resolve?] at found
    split at found
    · cases found
      simp
    · exact Nat.lt_succ_of_lt (ih found)

end Local

/-- Whether a reference is what a name stands for, in a chunk and with names bound to slots. -/
def Reference.Denotes (chunk : Chunk Constant) (names : List String) (name : String) :
    Reference → Prop
  | slot number => slotOf? name names = some number.toNat
  | global place => slotOf? name names = none ∧ chunk.Names place.toNat name

namespace Draft.Wrote

variable {before after : Draft} {names : List String} {name : String} {reference : Reference}

theorem nameConstant {place : UInt8} (valid : before.Valid)
    (effect : Effect (Compile.nameConstant name) before place after) :
    Wrote before after [] (fun final => final.Names place.toNat name) ∧
      after.chunk.size = before.chunk.size := by
  rcases effect_nameConstant effect with ⟨known, rfl⟩ | ⟨room, placeEq, rfl⟩
  · refine ⟨{ refl after with recovers := ?_ }, rfl⟩
    intro final holes below completes
    exact ⟨completes, completes.constants_eq _ _ (valid.names_eq name place known)⟩
  · have pooled : before.Wrote (before.pool (.string name)) [] _ := pool room rfl
    refine ⟨{ pooled with
      valid := fun valid => (pooled.valid valid).remember (by
        simp [Chunk.Names, Draft.pool, placeEq])
      recovers := ?_ }, rfl⟩
    rw [placeEq]
    exact pooled.recovers

theorem resolve (valid : before.Valid) (shows : before.Shows names)
    (effect : Effect (Compile.resolve name) before reference after) :
    Wrote before after [] (reference.Denotes · names name) ∧
      after.chunk.size = before.chunk.size := by
  rcases shows with ⟨pending, shown, localsEq, uninitialized, initialized, rfl⟩
  rcases effect_bind effect with ⟨compiler, _, got, effect⟩
  rcases effect_get got with ⟨rfl, rfl⟩
  have agrees : (∀ slot entry, Local.resolve? name compiler.draft.locals = some (slot, entry) →
      entry.depth ≠ none) → (Local.resolve? name compiler.draft.locals).map Prod.fst =
        slotOf? name (shown.map (·.name)) := by
    intro usable
    rw [localsEq] at usable ⊢
    rw [Local.resolve?_append uninitialized usable, Local.resolve?_eq_slotOf?]
  split at effect
  · exact absurd effect not_effect_fail
  · next slot entry usable found =>
    rcases effect_pure effect with ⟨rfl, rfl⟩
    refine ⟨(refl _).imp fun final _ => ?_, rfl⟩
    have small : slot < 256 := Nat.lt_of_lt_of_le (Local.resolve?_lt found) valid.locals_le
    have agree := agrees (by
      intro other bound same absent
      rw [found] at same
      cases same
      rcases entry with ⟨own, depth⟩
      cases absent
      exact usable own rfl)
    rw [found] at agree
    simp only [Reference.Denotes, UInt8.toNat_ofNat', Nat.reducePow]
    rw [Nat.mod_eq_of_lt small, ← agree]
    rfl
  · next found =>
    rcases effect_bind effect with ⟨place, _, named, effect⟩
    rcases effect_pure effect with ⟨rfl, rfl⟩
    have agree := agrees (by simp [found])
    rw [found] at agree
    rcases nameConstant valid named with ⟨wrote, sameSize⟩
    exact ⟨wrote.imp fun final names => ⟨agree.symm, names⟩, sameSize⟩

theorem access {inSlot inPool : Opcode} (short : inSlot.operandSize = 1)
    (shortToo : inPool.operandSize = 1) (effect : Effect (match reference with
      | .slot number => Compile.emitWith inSlot number
      | .global place => Compile.emitWith inPool place) before () after) :
    Wrote before after [] (fun final => ∀ names name, reference.Denotes final names name →
        final.Accesses names name inSlot.instruction inPool.instruction before.chunk.size) ∧
      after.chunk.size = before.chunk.size + 2 := by
  cases reference with
  | slot number =>
    rcases emitWith short effect with ⟨wrote, size⟩
    exact ⟨wrote.imp fun final found names name denotes => Or.inl ⟨_, denotes, found⟩, size⟩
  | global place =>
    rcases emitWith shortToo effect with ⟨wrote, size⟩
    exact ⟨wrote.imp fun final found names name denotes =>
      Or.inr ⟨denotes.1, _, found, denotes.2⟩, size⟩

end Draft.Wrote

namespace Expression

def Found (expression : Expression) : Prop :=
  ∀ {names : List String} {before after : Draft}, expression.Writes before after →
    before.Valid → before.Shows names →
    before.Wrote after [] fun final =>
      expression.CodeAt final names before.chunk.size after.chunk.size

variable {names : List String} {before after : Draft} {left right : Expression}

theorem and_found (leftFound : left.Found) (rightFound : right.Found) :
    (Expression.and left right).Found := by
  intro names before after writes valid shows
  rcases writes with ⟨first, jumped, popped, second, decided, writesLeft, jumps, pops, writesRight,
    patches⟩
  have wroteLeft := leftFound writesLeft valid shows
  rcases Wrote.emitJump rfl jumps with ⟨wroteJump, rfl, jumpSize⟩
  rcases Wrote.emit rfl pops with ⟨wrotePop, popSize⟩
  have toRight := (wroteLeft.andThen wroteJump).andThen wrotePop
  have wroteRight := rightFound writesRight (toRight.valid valid) (toRight.frame.shows shows)
  rcases (toRight.andThen wroteRight).patchJump (.refl _) patches with ⟨whole, patchSize⟩
  refine whole.imp ?_
  rintro final ⟨⟨⟨⟨codeLeft, jumpWord⟩, popFound⟩, codeRight⟩, leads⟩
  rw [jumpSize] at popFound
  rw [popSize, jumpSize] at codeRight
  rw [patchSize]
  exact ⟨_, codeLeft, leads.jumps jumpWord, popFound, codeRight⟩

theorem or_found (leftFound : left.Found) (rightFound : right.Found) :
    (Expression.or left right).Found := by
  intro names before after writes valid shows
  rcases writes with ⟨first, tested, jumped, patched, popped, second, undecided, decided,
    writesLeft, tests, jumps, patchesTest, pops, writesRight, patches⟩
  have wroteLeft := leftFound writesLeft valid shows
  rcases Wrote.emitJump rfl tests with ⟨wroteTest, rfl, testSize⟩
  rcases Wrote.emitJump rfl jumps with ⟨wroteJump, rfl, jumpSize⟩
  rcases ((wroteLeft.andThen wroteTest).andThen wroteJump).patchJump (.swap _ _ _) patchesTest with
    ⟨toPop, patchTestSize⟩
  rcases Wrote.emit rfl pops with ⟨wrotePop, popSize⟩
  have toRight := toPop.andThen wrotePop
  have wroteRight := rightFound writesRight (toRight.valid valid) (toRight.frame.shows shows)
  rcases (toRight.andThen wroteRight).patchJump (.refl _) patches with ⟨whole, patchSize⟩
  refine whole.imp ?_
  rintro final ⟨⟨⟨⟨⟨⟨codeLeft, testWord⟩, jumpWord⟩, leadsTest⟩, popFound⟩, codeRight⟩, leads⟩
  rw [patchTestSize, jumpSize, testSize] at popFound
  rw [popSize, patchTestSize, jumpSize, testSize] at codeRight
  rw [patchSize]
  have skips := leadsTest.jumps testWord
  have leaves := leads.jumps jumpWord
  rw [jumpSize, testSize] at skips
  rw [testSize] at leaves
  exact ⟨_, codeLeft, skips, leaves, popFound, codeRight⟩

theorem reference_found (name : String) : (Expression.reference name).Found := by
  intro names before after writes valid shows
  rcases writes with ⟨reference, resolved, resolves, gets⟩
  rcases Wrote.resolve valid shows resolves with ⟨wroteName, sameSize⟩
  rcases Wrote.access rfl rfl gets with ⟨wroteGet, size⟩
  refine (wroteName.andThen wroteGet).imp ?_
  rintro final ⟨denotes, accesses⟩
  rw [sameSize] at accesses size
  exact ⟨accesses names name denotes, size⟩

theorem assign_found {name : String} {value : Expression} (valueFound : value.Found) :
    (Expression.assign name value).Found := by
  intro names before after writes valid shows
  rcases writes with ⟨reference, resolved, valued, resolves, writesValue, sets⟩
  rcases Wrote.resolve valid shows resolves with ⟨wroteName, sameSize⟩
  have wroteValue := valueFound writesValue (wroteName.valid valid) (wroteName.frame.shows shows)
  rcases Wrote.access rfl rfl sets with ⟨wroteSet, size⟩
  refine ((wroteName.andThen wroteValue).andThen wroteSet).imp ?_
  rintro final ⟨⟨denotes, codeValue⟩, accesses⟩
  rw [sameSize] at codeValue
  exact ⟨_, codeValue, accesses names name denotes, size⟩

theorem unary_found {operator : UnaryOperator} {operand : Expression}
    (operandFound : operand.Found) : (Expression.unary operator operand).Found := by
  intro names before after writes valid shows
  rcases writes with ⟨operated, writesOperand, emits⟩
  have wroteOperand := operandFound writesOperand valid shows
  rcases Wrote.emit (by cases operator <;> rfl) emits with ⟨wrote, size⟩
  refine (wroteOperand.andThen wrote).imp ?_
  rintro final ⟨codeOperand, found⟩
  exact ⟨_, codeOperand, found, size⟩

theorem binary_found {operator : BinaryOperator} (leftFound : left.Found)
    (rightFound : right.Found) : (Expression.binary operator left right).Found := by
  intro names before after writes valid shows
  rcases writes with ⟨first, second, writesLeft, writesRight, emits⟩
  have wroteLeft := leftFound writesLeft valid shows
  have wroteRight := rightFound writesRight (wroteLeft.valid valid) (wroteLeft.frame.shows shows)
  have wroteAll := Wrote.emitAll (by cases operator <;> decide) emits
  refine ((wroteLeft.andThen wroteRight).andThen wroteAll).imp ?_
  rintro final ⟨⟨codeLeft, codeRight⟩, found⟩
  exact ⟨_, _, codeLeft, codeRight, found⟩

theorem all_found {expressions : List Expression}
    (each : ∀ expression ∈ expressions, expression.Found)
    (writes : Expression.WritesAll expressions before after) (valid : before.Valid)
    (shows : before.Shows names) :
    before.Wrote after [] fun final =>
      Expression.AllCodeAt final names expressions before.chunk.size after.chunk.size := by
  induction expressions generalizing before with
  | nil =>
    subst writes
    exact (Wrote.refl _).imp fun final _ => by simp [AllCodeAt]
  | cons expression expressions ih =>
    rcases writes with ⟨middle, writesFirst, writesRest⟩
    have wroteFirst := each expression (by simp) writesFirst valid shows
    have wroteRest := ih (fun other present => each other (by simp [present])) writesRest
      (wroteFirst.valid valid) (wroteFirst.frame.shows shows)
    refine (wroteFirst.andThen wroteRest).imp ?_
    rintro final ⟨codeFirst, codeRest⟩
    exact ⟨_, codeFirst, codeRest⟩

theorem call_found {callee : Expression} {arguments : List Expression}
    (calleeFound : callee.Found) (argumentsFound : ∀ argument ∈ arguments, argument.Found) :
    (Expression.call callee arguments).Found := by
  intro names before after writes valid shows
  rcases writes with ⟨called, given, writesCallee, writesArguments, few, emits⟩
  have wroteCallee := calleeFound writesCallee valid shows
  have wroteArguments := all_found argumentsFound writesArguments (wroteCallee.valid valid)
    (wroteCallee.frame.shows shows)
  rcases Wrote.emitWith rfl emits with ⟨wroteCall, size⟩
  refine ((wroteCallee.andThen wroteArguments).andThen wroteCall).imp ?_
  rintro final ⟨⟨codeCallee, codeArguments⟩, found⟩
  have small : (UInt8.ofNat arguments.length).toNat = arguments.length := by
    simp only [maxArguments] at few
    simp only [UInt8.toNat_ofNat', Nat.reducePow]
    omega
  rw [small] at found
  exact ⟨_, _, codeCallee, codeArguments, found, size⟩

theorem found (expression : Expression) : expression.Found := by
  induction expression with
  | number | string =>
    intro names before after writes valid shows
    rcases Wrote.emitConstant rfl writes with ⟨wrote, size⟩
    refine wrote.imp ?_
    rintro final ⟨place, found, holds⟩
    exact ⟨place, found, holds, size⟩
  | literal value =>
    intro names before after writes valid shows
    rcases Wrote.emit (by cases value <;> rfl) writes with ⟨wrote, size⟩
    refine wrote.imp fun final found => ?_
    exact ⟨found, size⟩
  | reference name => exact reference_found name
  | assign name value valueFound => exact assign_found valueFound
  | unary operator operand operandFound => exact unary_found operandFound
  | binary operator left right leftFound rightFound => exact binary_found leftFound rightFound
  | and left right leftFound rightFound => exact and_found leftFound rightFound
  | or left right leftFound rightFound => exact or_found leftFound rightFound
  | call callee arguments calleeFound argumentsFound =>
    exact call_found calleeFound argumentsFound

end Expression

end StackScript
