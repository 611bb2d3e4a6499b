import StackScript.Proofs.Drafting

/-!
# Whether writing succeeds

An action that writes settles whether the code is allowed: it succeeds exactly if nothing in it
breaks a rule and the pool has room for its constants.
-/

namespace StackScript

/-- The constants of a function under construction, and the names among them with their places. -/
structure Pool where
  constants : Array Constant
  names : Std.TreeMap String UInt8

/-- The pool of a draft. -/
def Draft.pooled (draft : Draft) : Pool :=
  ⟨draft.chunk.constants, draft.names⟩

/-- A draft with another pool. -/
def Draft.withPool (draft : Draft) (pool : Pool) : Draft :=
  { draft with
    chunk := { draft.chunk with constants := pool.constants }
    names := pool.names }

namespace Pool

def size (pool : Pool) : Nat :=
  pool.constants.size

def add (pool : Pool) (constant : Constant) : Pool :=
  { pool with constants := pool.constants.push constant }

/-- The place that a name has or gets. -/
def placeOf (pool : Pool) (name : String) : UInt8 :=
  pool.names[name]?.getD (UInt8.ofNat pool.size)

/-- Gives a name a place. -/
def withName (pool : Pool) (name : String) : Pool :=
  match pool.names[name]? with
  | some _ => pool
  | none => ⟨pool.constants.push (.string name), pool.names.insert name (UInt8.ofNat pool.size)⟩

end Pool

namespace Compile

variable {α β : Type}

/-- Whether the outcome of an action is decided by a rule and by the room in the pool. -/
def Settles (allowed enough : Prop) (post : α → Compiler → Prop) :
    EStateM.Result CompileError Compiler α → Prop
  | .ok value after => allowed ∧ enough ∧ post value after
  | .error error _ => ¬(allowed ∧ enough) ∧ (allowed → error.kind = .tooManyConstants)

namespace Settles

variable {allowed allowed' enough enough' : Prop} {post : α → Compiler → Prop}
  {post' : β → Compiler → Prop} {writer : Compiler} {action : Compile α} {next : α → Compile β}
  {result : EStateM.Result CompileError Compiler α}

theorem ofOk {value : α} {after : Compiler} (ran : result = .ok value after)
    (holds : post value after) : Settles True True post result := by
  rw [ran]
  exact ⟨trivial, trivial, holds⟩

theorem ofFail {kind : CompileError.Kind} (broken : ¬allowed) :
    Settles allowed enough post (fail kind writer) :=
  ⟨fun both => broken both.1, fun isAllowed => absurd isAllowed broken⟩

theorem congr (settles : Settles allowed enough post result) (sameRule : allowed ↔ allowed')
    (sameRoom : enough ↔ enough') : Settles allowed' enough' post result := by
  rw [← propext sameRule, ← propext sameRoom]
  exact settles

theorem congrRoom (settles : Settles allowed enough post result)
    (sameRoom : allowed → (enough ↔ enough')) : Settles allowed enough' post result := by
  cases result with
  | ok value after =>
    rcases settles with ⟨isAllowed, isEnough, holds⟩
    exact ⟨isAllowed, (sameRoom isAllowed).mp isEnough, holds⟩
  | error error after =>
    rcases settles with ⟨broken, wants⟩
    exact ⟨fun both => broken ⟨both.1, (sameRoom both.1).mpr both.2⟩, wants⟩

theorem imp {other : α → Compiler → Prop} (settles : Settles allowed enough post result)
    (implies : ∀ value after, allowed → enough → post value after → other value after) :
    Settles allowed enough other result := by
  cases result with
  | ok value after =>
    rcases settles with ⟨isAllowed, isEnough, holds⟩
    exact ⟨isAllowed, isEnough, implies value after isAllowed isEnough holds⟩
  | error error after => exact settles

section

variable (first : Settles allowed enough post (action writer))
include first

/-- Two actions one after the other, each with its own rule and its own need of room. -/
theorem bind (second : ∀ value after, allowed → enough → post value after →
      Settles allowed' enough' post' (next value after)) :
    Settles (allowed ∧ allowed') (enough ∧ enough') post' ((action >>= next) writer) := by
  rw [bind_apply]
  cases ran : action writer with
  | ok value after =>
    rw [ran] at first
    rcases first with ⟨isAllowed, isEnough, holds⟩
    have rest := second value after isAllowed isEnough holds
    simp only
    generalize next value after = result at rest
    cases result with
    | ok other last =>
      rcases rest with ⟨isAllowed', isEnough', holds'⟩
      exact ⟨⟨isAllowed, isAllowed'⟩, ⟨isEnough, isEnough'⟩, holds'⟩
    | error error last =>
      rcases rest with ⟨broken, wants⟩
      exact ⟨fun both => broken ⟨both.1.2, both.2.2⟩, fun both => wants both.2⟩
  | error error after =>
    rw [ran] at first
    rcases first with ⟨broken, wants⟩
    exact ⟨fun both => broken ⟨both.1.1, both.2.1⟩, fun both => wants both.1⟩

theorem andThen {rule room : Prop} (rules : rule ↔ allowed ∧ allowed')
    (rooms : room ↔ enough ∧ enough') (second : ∀ value after, allowed → enough → post value after →
      Settles allowed' enough' post' (next value after)) :
    Settles rule room post' ((action >>= next) writer) :=
  (first.bind second).congr rules.symm rooms.symm

theorem thenRule {rule : Prop} (rules : rule ↔ allowed ∧ allowed')
    (second : ∀ value after, enough → post value after →
      Settles allowed' True post' (next value after)) :
    Settles rule enough post' ((action >>= next) writer) :=
  (first.bind fun value after _ isEnough holds => second value after isEnough holds).congr
    rules.symm (by rw [and_true])

theorem thenOk (second : ∀ value after, enough → post value after →
      ∃ other last, next value after = .ok other last ∧ post' other last) :
    Settles allowed enough post' ((action >>= next) writer) := by
  have rules : allowed ↔ allowed ∧ True := by rw [and_true]
  apply first.thenRule rules
  intro value after isEnough holds
  rcases second value after isEnough holds with ⟨other, last, ran, holds'⟩
  exact .ofOk ran holds'

end

theorem after {value : α} {middle : Compiler} (ran : action writer = .ok value middle)
    (rest : Settles allowed enough post' (next value middle)) :
    Settles allowed enough post' ((action >>= next) writer) := by
  rw [bind_of_ok ran]
  exact rest

end Settles

/-! ## Actions that write -/

variable {writer : Compiler}

theorem patchJump_settles {offset : Nat} (inside : offset + 2 ≤ writer.draft.chunk.size) :
    Settles (writer.draft.chunk.size - (offset + 2) ≤ maxDistance) True
      (fun _ after => after =
        writer.onDraft (·.patch offset (writer.draft.chunk.size - (offset + 2))))
      (patchJump offset writer) := by
  rw [patchJump_apply inside]
  split
  · next near => exact ⟨near, trivial, rfl⟩
  · next far => exact ⟨fun both => far both.1, fun near => absurd near far⟩

theorem emitLoop_settles {start : Nat} (inside : start ≤ writer.draft.chunk.size + 3) :
    Settles (writer.draft.chunk.size + 3 - start ≤ maxDistance) True
      (fun _ after => after = writer.onDraft
        (·.write .loop (writer.draft.chunk.size + 3 - start) writer.previous.line))
      (emitLoop start writer) := by
  rw [emitLoop_apply inside]
  split
  · next near => exact ⟨near, trivial, rfl⟩
  · next far => exact ⟨fun both => far both.1, fun near => absurd near far⟩

theorem makeConstant_settles (constant : Constant) :
    Settles True ((writer.draft.pooled.add constant).size ≤ Chunk.maxConstants)
      (fun place after => place = UInt8.ofNat writer.draft.pooled.size ∧
        after = writer.onDraft (·.withPool (writer.draft.pooled.add constant)))
      (makeConstant constant writer) := by
  have size : (writer.draft.pooled.add constant).size = writer.draft.chunk.constants.size + 1 := by
    simp [Pool.add, Pool.size, Draft.pooled]
  rw [size]
  by_cases room : writer.draft.chunk.constants.size < Chunk.maxConstants
  · simp only [makeConstant, Chunk.addConstant?, if_pos room]
    exact ⟨trivial, room, rfl, rfl⟩
  · simp only [makeConstant, Chunk.addConstant?, if_neg room]
    exact ⟨fun both => room both.2, fun _ => rfl⟩

theorem emitConstant_settles (constant : Constant) :
    Settles True ((writer.draft.pooled.add constant).size ≤ Chunk.maxConstants)
      (fun _ after => after = writer.onDraft fun draft =>
        (draft.withPool (writer.draft.pooled.add constant)).write .constant
          writer.draft.pooled.size writer.previous.line)
      (emitConstant constant writer) := by
  apply (makeConstant_settles constant).thenOk
  rintro place after room ⟨rfl, rfl⟩
  refine ⟨(), _, emitWith_apply rfl _ _, ?_⟩
  have restored : (UInt8.ofNat writer.draft.pooled.size).toNat = writer.draft.pooled.size := by
    simp only [Pool.size, Pool.add, Array.size_push, Chunk.maxConstants] at room
    simp only [UInt8.toNat_ofNat', Nat.reducePow]
    exact Nat.mod_eq_of_lt room
  rw [restored]
  rfl

theorem nameConstant_settles (name : String)
    (room : writer.draft.pooled.size ≤ Chunk.maxConstants) :
    Settles True ((writer.draft.pooled.withName name).size ≤ Chunk.maxConstants)
      (fun place after => place = writer.draft.pooled.placeOf name ∧
        after = writer.onDraft (·.withPool (writer.draft.pooled.withName name)))
      (nameConstant name writer) := by
  change Settles _ _ _ ((match writer.draft.names[name]? with
    | some index => pure index
    | none => makeConstant (.string name) >>= fun index => modify _ >>= fun _ => pure index
      : Compile UInt8) writer)
  cases known : writer.draft.names[name]? with
  | some place =>
    have same : writer.draft.pooled.withName name = writer.draft.pooled := by
      simp only [Pool.withName, Draft.pooled, known]
    rw [same, Pool.placeOf, show writer.draft.pooled.names[name]? = some place from known]
    exact ⟨trivial, room, rfl, rfl⟩
  | none =>
    have grown : writer.draft.pooled.withName name =
        ⟨(writer.draft.pooled.add (.string name)).constants,
          writer.draft.names.insert name (UInt8.ofNat writer.draft.pooled.size)⟩ := by
      simp only [Pool.withName, Draft.pooled, known, Pool.add]
    rw [grown, Pool.placeOf, show writer.draft.pooled.names[name]? = none from known]
    apply (makeConstant_settles (.string name)).thenOk
    rintro place after _ ⟨rfl, rfl⟩
    exact ⟨_, _, rfl, rfl, rfl⟩

end Compile

end StackScript
