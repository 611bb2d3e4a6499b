import StackScript.Proofs.Action
import StackScript.Proofs.Completion
import StackScript.Proofs.Layout
import StackScript.Proofs.Writing

/-!
# What the writing actions do to a draft

Each action that writes is turned into an equation between the drafts before and after it. The
drafts are valid: names have the place in the pool that they are said to have, and nothing is
numbered beyond a byte.
-/

namespace StackScript

open Compile (Effect)

namespace Draft

variable {draft : Draft} {opcode : Opcode} {operand line : Nat}

def write (draft : Draft) (opcode : Opcode) (operand line : Nat) : Draft :=
  { draft with chunk := draft.chunk.write opcode operand line }

def patch (draft : Draft) (offset word : Nat) : Draft :=
  { draft with chunk := draft.chunk.patchWord offset word }

def pool (draft : Draft) (constant : Constant) : Draft :=
  { draft with chunk := { draft.chunk with constants := draft.chunk.constants.push constant } }

def remember (draft : Draft) (name : String) (place : UInt8) : Draft :=
  { draft with names := draft.names.insert name place }

end Draft

/-- Whether two jumps, each with its word behind its operation, share no byte. -/
def Apart (offset other : Nat) : Prop :=
  offset + 3 ≤ other ∨ other + 3 ≤ offset

namespace Compile

variable {α β : Type} {before after : Draft} {compiler : Compiler} {opcode : Opcode}
  {constant : Constant} {offset : Nat} {place : UInt8}

theorem emit_apply (bare : opcode.operandSize = 0) (compiler : Compiler) :
    emit opcode compiler = .ok () (compiler.onDraft (·.write opcode 0 compiler.previous.line)) := by
  simp only [emit, Compiler.onChunk, Compiler.onDraft, Draft.write, Chunk.writeOpcode_eq_write bare]

theorem emitWith_apply (short : opcode.operandSize = 1) (operand : UInt8) (compiler : Compiler) :
    emitWith opcode operand compiler =
      .ok () (compiler.onDraft (·.write opcode operand.toNat compiler.previous.line)) := by
  simp only [emitWith, Compiler.onChunk, Compiler.onDraft, Draft.write,
    Chunk.writeByte_eq_write short]

theorem emitJump_apply (wide : opcode.operandSize = 2) (compiler : Compiler) :
    emitJump opcode compiler = .ok (compiler.draft.chunk.size + 1)
      (compiler.onDraft (·.write opcode placeholder compiler.previous.line)) := by
  have written : (compiler.draft.chunk.writeOpcode opcode compiler.previous.line).writeWord
      placeholder = compiler.draft.chunk.write opcode placeholder compiler.previous.line :=
    Chunk.writeWord_eq_write wide
  have size : (compiler.draft.chunk.write opcode placeholder compiler.previous.line).size =
      compiler.draft.chunk.size + 3 := by
    simp [Opcode.size, wide]
  rw [emitJump, bind_of_ok (show emit opcode compiler = .ok () _ from rfl),
    bind_of_ok (show (modify _ : Compile Unit) _ = .ok () _ from rfl),
    bind_of_ok (show codeSize _ = .ok _ _ from rfl)]
  simp only [Compiler.onChunk, Compiler.onDraft, Draft.write, written, size]
  rfl

theorem patchJump_apply (inside : offset + 2 ≤ compiler.draft.chunk.size) :
    patchJump offset compiler =
      if compiler.draft.chunk.size - (offset + 2) ≤ maxDistance then
        .ok () (compiler.onDraft (·.patch offset (compiler.draft.chunk.size - (offset + 2))))
      else .error (.atToken compiler.previous .jumpTooLarge) compiler := by
  rw [patchJump, bind_of_ok (show codeSize compiler = .ok _ _ from rfl), if_neg (by omega),
    Nat.sub_sub]
  by_cases near : compiler.draft.chunk.size - (offset + 2) ≤ maxDistance
  · rw [if_neg (Nat.not_lt.mpr near), if_pos near]
    rfl
  · rw [if_pos (Nat.not_le.mp near), if_neg near]
    rfl

theorem emitLoop_apply {start : Nat} (inside : start ≤ compiler.draft.chunk.size + 3) :
    emitLoop start compiler =
      if compiler.draft.chunk.size + 3 - start ≤ maxDistance then
        .ok () (compiler.onDraft
          (·.write .loop (compiler.draft.chunk.size + 3 - start) compiler.previous.line))
      else .error (.atToken compiler.previous .loopTooLarge)
        (compiler.onChunk (·.writeOpcode .loop compiler.previous.line)) := by
  have size : (compiler.draft.chunk.writeOpcode .loop compiler.previous.line).size + 2 =
      compiler.draft.chunk.size + 3 := by
    simp [Chunk.writeOpcode, Chunk.size]
  rw [emitLoop, bind_of_ok (show emit .loop compiler = .ok () _ from rfl),
    bind_of_ok (show codeSize _ = .ok _ _ from rfl)]
  simp only [Compiler.onChunk, Compiler.onDraft, Draft.write, size,
    ← Chunk.writeWord_eq_write (show Opcode.operandSize .loop = 2 from rfl)]
  rw [if_neg (by omega)]
  by_cases near : compiler.draft.chunk.size + 3 - start ≤ maxDistance
  · rw [if_neg (Nat.not_lt.mpr near), if_pos near]
    rfl
  · rw [if_pos (Nat.not_le.mp near), if_neg near]
    rfl

theorem makeConstant_eq_ok {after : Compiler}
    (ran : makeConstant constant compiler = .ok place after) :
    compiler.draft.chunk.constants.size < 256 ∧
      place.toNat = compiler.draft.chunk.constants.size ∧
      after = compiler.onDraft (·.pool constant) := by
  by_cases room : compiler.draft.chunk.constants.size < Chunk.maxConstants
  · simp only [makeConstant, Chunk.addConstant?, if_pos room] at ran
    cases ran
    exact ⟨room, Nat.mod_eq_of_lt room, rfl⟩
  · simp only [makeConstant, Chunk.addConstant?, if_neg room] at ran
    cases ran

theorem emitConstant_eq_ok {after : Compiler}
    (ran : emitConstant constant compiler = .ok () after) :
    compiler.draft.chunk.constants.size < 256 ∧
      after = compiler.onDraft fun draft => (draft.pool constant).write .constant
        draft.chunk.constants.size compiler.previous.line := by
  rcases bind_eq_ok.mp ran with ⟨place, _, made, emits⟩
  rcases makeConstant_eq_ok made with ⟨room, placeEq, rfl⟩
  rw [emitWith_apply rfl, placeEq] at emits
  cases emits
  exact ⟨room, rfl⟩

theorem effect_bind {action : Compile α} {next : α → Compile β} {result : β}
    (effect : Effect (action >>= next) before result after) :
    ∃ value middle, Effect action before value middle ∧
      Effect (next value) middle result after := by
  rcases effect with ⟨compiler, compiler', ran, rfl, rfl⟩
  rcases bind_eq_ok.mp ran with ⟨value, reached, first, second⟩
  exact ⟨value, reached.draft, ⟨_, _, first, rfl, rfl⟩, ⟨_, _, second, rfl, rfl⟩⟩

theorem effect_pure {value result : α} (effect : Effect (pure value) before result after) :
    value = result ∧ after = before := by
  rcases effect with ⟨compiler, compiler', ran, rfl, rfl⟩
  rcases pure_eq_ok.mp ran with ⟨same, rfl⟩
  exact ⟨same, rfl⟩

theorem not_effect_fail {kind : CompileError.Kind} {result : α} :
    ¬Effect (fail kind) before result after := by
  rintro ⟨compiler, compiler', ran, _⟩
  exact fail_ne_ok ran

theorem effect_get {result : Compiler} (effect : Effect get before result after) :
    result.draft = before ∧ after = before := by
  rcases effect with ⟨compiler, compiler', ran, rfl, rfl⟩
  rcases get_eq_ok.mp ran with ⟨rfl, rfl⟩
  exact ⟨rfl, rfl⟩

theorem effect_modify {change : Compiler → Compiler} {result : Unit}
    (effect : Effect (modify change) before result after) :
    ∃ compiler : Compiler, compiler.draft = before ∧ (change compiler).draft = after := by
  rcases effect with ⟨compiler, compiler', ran, rfl, rfl⟩
  rw [← modify_eq_ok.mp ran]
  exact ⟨compiler, rfl, rfl⟩

theorem effect_onDraft {change : Draft → Draft} {result : Unit}
    (effect : Effect (modify (·.onDraft change)) before result after) : after = change before := by
  rcases effect_modify effect with ⟨compiler, rfl, rfl⟩
  rfl

theorem effect_emit (bare : opcode.operandSize = 0)
    (effect : Effect (emit opcode) before () after) :
    ∃ line, after = before.write opcode 0 line := by
  rcases effect with ⟨compiler, compiler', ran, rfl, rfl⟩
  rw [emit_apply bare] at ran
  cases ran
  exact ⟨_, rfl⟩

theorem effect_emitWith {operand : UInt8} (short : opcode.operandSize = 1)
    (effect : Effect (emitWith opcode operand) before () after) :
    ∃ line, after = before.write opcode operand.toNat line := by
  rcases effect with ⟨compiler, compiler', ran, rfl, rfl⟩
  rw [emitWith_apply short] at ran
  cases ran
  exact ⟨_, rfl⟩

theorem effect_makeConstant (effect : Effect (makeConstant constant) before place after) :
    before.chunk.constants.size < 256 ∧ place.toNat = before.chunk.constants.size ∧
      after = before.pool constant := by
  rcases effect with ⟨compiler, compiler', ran, rfl, rfl⟩
  rcases makeConstant_eq_ok ran with ⟨room, placeEq, rfl⟩
  exact ⟨room, placeEq, rfl⟩

theorem effect_emitConstant (effect : Effect (emitConstant constant) before () after) :
    before.chunk.constants.size < 256 ∧ ∃ line,
      after = (before.pool constant).write .constant before.chunk.constants.size line := by
  rcases effect with ⟨compiler, compiler', ran, rfl, rfl⟩
  rcases emitConstant_eq_ok ran with ⟨room, rfl⟩
  exact ⟨room, _, rfl⟩

theorem effect_nameConstant {name : String}
    (effect : Effect (nameConstant name) before place after) :
    (before.names[name]? = some place ∧ after = before) ∨
      (before.chunk.constants.size < 256 ∧ place.toNat = before.chunk.constants.size ∧
        after = (before.pool (.string name)).remember name place) := by
  rcases effect_bind effect with ⟨compiler, _, got, effect⟩
  rcases effect_get got with ⟨rfl, rfl⟩
  split at effect
  · next known =>
    rcases effect_pure effect with ⟨rfl, rfl⟩
    exact Or.inl ⟨known, rfl⟩
  · rcases effect_bind effect with ⟨index, pooled, made, effect⟩
    rcases effect_bind effect with ⟨_, remembered, remembers, effect⟩
    rcases effect_pure effect with ⟨rfl, rfl⟩
    rcases effect_makeConstant made with ⟨room, indexEq, rfl⟩
    exact Or.inr ⟨room, indexEq, effect_onDraft remembers⟩

theorem effect_emitJump (wide : opcode.operandSize = 2)
    (effect : Effect (emitJump opcode) before offset after) :
    offset = before.chunk.size + 1 ∧ ∃ line, after = before.write opcode placeholder line := by
  rcases effect with ⟨compiler, compiler', ran, rfl, rfl⟩
  rw [emitJump_apply wide] at ran
  cases ran
  exact ⟨rfl, _, rfl⟩

theorem effect_patchJump (effect : Effect (patchJump offset) before () after) :
    offset + 2 ≤ before.chunk.size ∧ before.chunk.size - offset - 2 < 65536 ∧
      after = before.patch offset (before.chunk.size - offset - 2) := by
  rcases effect with ⟨compiler, compiler', ran, rfl, rfl⟩
  by_cases inside : offset + 2 ≤ compiler.draft.chunk.size
  · rw [patchJump_apply inside] at ran
    split at ran
    · next near =>
      cases ran
      rw [Nat.sub_sub]
      exact ⟨inside, Nat.lt_succ_of_le near, rfl⟩
    · cases ran
  · rw [patchJump, bind_of_ok (show codeSize compiler = .ok _ _ from rfl),
      if_pos (Nat.not_le.mp inside)] at ran
    cases ran

theorem effect_emitLoop {start : Nat} (effect : Effect (emitLoop start) before () after) :
    start ≤ before.chunk.size + 3 ∧ before.chunk.size + 3 - start < 65536 ∧ ∃ line,
      after = before.write .loop (before.chunk.size + 3 - start) line := by
  rcases effect with ⟨compiler, compiler', ran, rfl, rfl⟩
  by_cases inside : start ≤ compiler.draft.chunk.size + 3
  · rw [emitLoop_apply inside] at ran
    split at ran
    · next near =>
      cases ran
      exact ⟨inside, Nat.lt_succ_of_le near, _, rfl⟩
    · cases ran
  · rw [emitLoop, bind_of_ok (show emit .loop compiler = .ok () _ from rfl),
      bind_of_ok (show codeSize _ = .ok _ _ from rfl), if_pos (by
        simp only [Compiler.onChunk, Compiler.onDraft, Chunk.writeOpcode, Chunk.size,
          Array.size_push]
        exact Nat.not_le.mp inside)] at ran
    cases ran

theorem effect_openScope {kind : ScopeKind} (effect : Effect (openScope kind) before () after) :
    after = before.openScope kind :=
  effect_onDraft effect

end Compile

def Function.Written (function : Function) : Prop :=
  ∃ (name : String) (parameters : List String) (body : Statement) (stops : List Draft),
    body.Placed ∧ Statement.WritesFunction name parameters body function stops

namespace Draft

variable {draft before middle after : Draft}

/-- What holds of every draft that the compiler comes to. -/
structure Valid (draft : Draft) : Prop where
  names_eq : ∀ (name : String) (place : UInt8), draft.names[name]? = some place →
    draft.chunk.Names place.toNat name
  constants_le : draft.chunk.constants.size ≤ 256
  locals_le : draft.locals.length ≤ 256
  lines_eq : draft.chunk.lines.size = draft.chunk.starts.size
  functions_written : ∀ (place : Nat) (function : Function),
    draft.chunk.constants[place]? = some (.function function) → function.Written

/-- What a draft is, apart from its code. -/
def head (draft : Draft) : String × Nat × DraftKind :=
  (draft.name, draft.arity, draft.kind)

/-- Whether two drafts differ in their code and their constants only. -/
structure SameFrame (before after : Draft) : Prop where
  head_eq : after.head = before.head
  locals_eq : after.locals = before.locals
  scopes_eq : after.scopes = before.scopes

/-- How many functions are in the pool. -/
def functions (draft : Draft) : Nat :=
  draft.chunk.rank draft.chunk.constants.size

theorem kind_eq_of_head_eq (same : after.head = before.head) : after.kind = before.kind :=
  congrArg (·.2.2) same

namespace SameFrame

theorem refl (draft : Draft) : draft.SameFrame draft :=
  ⟨rfl, rfl, rfl⟩

theorem trans (first : before.SameFrame middle) (second : middle.SameFrame after) :
    before.SameFrame after :=
  ⟨second.head_eq.trans first.head_eq, second.locals_eq.trans first.locals_eq,
    second.scopes_eq.trans first.scopes_eq⟩

end SameFrame

namespace Valid

theorem write (valid : draft.Valid) (opcode : Opcode) (operand line : Nat) :
    (draft.write opcode operand line).Valid where
  names_eq := valid.names_eq
  constants_le := valid.constants_le
  locals_le := valid.locals_le
  lines_eq := by simp [Draft.write, Chunk.write, valid.lines_eq]
  functions_written := valid.functions_written

theorem patch (valid : draft.Valid) (offset word : Nat) : (draft.patch offset word).Valid where
  names_eq := valid.names_eq
  constants_le := valid.constants_le
  locals_le := valid.locals_le
  lines_eq := valid.lines_eq
  functions_written := valid.functions_written

theorem pool {constant : Constant} (valid : draft.Valid)
    (room : draft.chunk.constants.size < 256)
    (written : ∀ function, constant = .function function → function.Written) :
    (draft.pool constant).Valid where
  names_eq name place known := by
    have found := valid.names_eq name place known
    have bound := (Array.getElem?_eq_some_iff.mp found).1
    simp only [Chunk.Names, Draft.pool, Array.getElem?_push]
    rw [if_neg (by omega)]
    exact found
  constants_le := by
    simp only [Draft.pool, Array.size_push]
    omega
  locals_le := valid.locals_le
  lines_eq := valid.lines_eq
  functions_written place function found := by
    simp only [Draft.pool, Array.getElem?_push] at found
    split at found
    · exact written function (Option.some.inj found)
    · exact valid.functions_written place function found

theorem remember {name : String} {place : UInt8} (valid : draft.Valid)
    (named : draft.chunk.Names place.toNat name) : (draft.remember name place).Valid where
  names_eq other index known := by
    simp only [Draft.remember, Std.TreeMap.getElem?_insert] at known
    split at known
    · next same =>
      rw [← Std.LawfulEqCmp.compare_eq_iff_eq.mp same, ← Option.some.inj known]
      exact named
    · exact valid.names_eq other index known
  constants_le := valid.constants_le
  locals_le := valid.locals_le
  lines_eq := valid.lines_eq
  functions_written := valid.functions_written

end Valid

end Draft

end StackScript
