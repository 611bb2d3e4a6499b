import Mathlib.Order.Bounds.Basic
import StackScript.Chunk.Lines

/-!
# Looking up a line

A chunk keeps the first bytes of its instructions in ascending order, each with a line. So bisection
finds the last instruction that starts at or before a byte.
-/

namespace StackScript.Chunk

variable {κ : Type} {chunk : Chunk κ} {offset : Nat} {starts : Array Nat}

/-! ## Building up a chunk -/

/-- An operation that makes a chunk grow. -/
inductive Edit (κ : Type) where
  | opcode (opcode : Opcode) (line : Nat)
  | byte (byte : UInt8)
  | constant (constant : κ)

/-- What an operation makes of a chunk; a constant that finds the pool full changes nothing. -/
def edit (chunk : Chunk κ) : Edit κ → Chunk κ
  | .opcode opcode line => chunk.writeOpcode opcode line
  | .byte byte => chunk.writeByte byte
  | .constant constant => ((chunk.addConstant? constant).map Prod.snd).getD chunk

/-- Whether the table of a chunk has a line for each instruction, in the order of the code. -/
structure Indexed (chunk : Chunk κ) : Prop where
  ascending : chunk.starts.toList.Pairwise (· < ·)
  size_eq : chunk.starts.size = chunk.lines.size
  inside : ∀ start ∈ chunk.starts, start < chunk.size

theorem Indexed.edit (indexed : chunk.Indexed) (next : Edit κ) : (chunk.edit next).Indexed := by
  cases next with
  | opcode opcode line =>
    refine ⟨?_, ?_, ?_⟩
    · simp only [Chunk.edit, writeOpcode, Array.toList_push, List.pairwise_append,
        List.pairwise_singleton, List.mem_singleton, true_and]
      refine ⟨indexed.ascending, ?_⟩
      rintro start present _ rfl
      exact indexed.inside start (Array.mem_toList_iff.mp present)
    · simp [Chunk.edit, writeOpcode, indexed.size_eq]
    · intro start present
      have longer : (chunk.edit (.opcode opcode line)).size = chunk.size + 1 :=
        Array.size_push ..
      rcases Array.mem_push.mp present with earlier | rfl
      · exact longer ▸ Nat.lt_succ_of_lt (indexed.inside start earlier)
      · exact longer ▸ Nat.lt_succ_self _
  | byte byte =>
    refine ⟨indexed.ascending, indexed.size_eq, fun start present => ?_⟩
    have longer : (chunk.edit (.byte byte)).size = chunk.size + 1 := Array.size_push ..
    exact longer ▸ Nat.lt_succ_of_lt (indexed.inside start present)
  | constant constant =>
    simp only [Chunk.edit, addConstant?]
    split
    · exact ⟨indexed.ascending, indexed.size_eq, indexed.inside⟩
    · exact indexed

theorem indexed_edits (edits : List (Edit κ)) : (edits.foldl edit empty).Indexed := by
  have start : (empty : Chunk κ).Indexed :=
    ⟨List.Pairwise.nil, rfl, fun _ present => absurd present (Array.not_mem_empty _)⟩
  generalize (empty : Chunk κ) = chunk at start
  induction edits generalizing chunk with
  | nil => exact start
  | cons next rest ih => exact ih _ (start.edit next)

/-! ## Bisection -/

/-- Whether those of the starts that lie at or before a byte end between two places. -/
structure Window (starts : Array Nat) (offset low high : Nat) : Prop where
  le : low ≤ high
  inside : high ≤ starts.size
  below : ∀ index < low, starts.getD index 0 ≤ offset
  above : ∀ index < starts.size, high ≤ index → offset < starts.getD index 0

theorem getD_le_getD (ascending : starts.toList.Pairwise (· < ·)) {index other : Nat}
    (le : index ≤ other) (inside : other < starts.size) :
    starts.getD index 0 ≤ starts.getD other 0 := by
  have insideToo : index < starts.size := Nat.lt_of_le_of_lt le inside
  rcases Nat.eq_or_lt_of_le le with rfl | earlier
  · exact Nat.le_refl _
  · have lt := List.pairwise_iff_getElem.mp ascending index other insideToo inside earlier
    simpa [Array.getD, insideToo, inside] using Nat.le_of_lt lt

theorem Window.bisect (ascending : starts.toList.Pairwise (· < ·)) {low high : Nat}
    (window : Window starts offset low high) :
    Window starts offset (bisect starts offset low high) (bisect starts offset low high) := by
  fun_induction Chunk.bisect starts offset low high with
  | case1 low high apart middle reached ih =>
    refine ih ⟨by omega, window.inside, fun index before => ?_, window.above⟩
    have le : index ≤ middle := Nat.le_of_lt_succ before
    exact Nat.le_trans (getD_le_getD ascending le (by have := window.inside; omega)) reached
  | case2 low high apart middle beyond ih =>
    refine ih ⟨by omega, by have := window.inside; omega, window.below, ?_⟩
    intro index inside behind
    exact Nat.lt_of_lt_of_le (Nat.lt_of_not_le beyond) (getD_le_getD ascending behind inside)
  | case3 low high met =>
    have highEq : high = low := Nat.le_antisymm (Nat.le_of_not_lt met) window.le
    exact highEq ▸ window

theorem Indexed.window (indexed : chunk.Indexed) (offset : Nat) :
    Window chunk.starts offset (chunk.startedBy offset) (chunk.startedBy offset) :=
  Window.bisect indexed.ascending
    ⟨Nat.zero_le _, Nat.le_refl _, fun _ before => absurd before (Nat.not_lt_zero _),
      fun _ inside behind => absurd inside (Nat.not_lt_of_le behind)⟩

/-! ## The line of a byte -/

/-- The places of the instructions that start at or before a byte. -/
def begunBy (chunk : Chunk κ) (offset : Nat) : Set Nat :=
  {index | ∃ start, chunk.starts[index]? = some start ∧ start ≤ offset}

/-- Which line the instructions of a chunk give a byte, whichever way they are searched. -/
inductive HasLine (chunk : Chunk κ) (offset : Nat) : Nat → Prop where
  | within {index line : Nat} (latest : IsGreatest (chunk.begunBy offset) index)
      (found : chunk.lines[index]? = some line) : HasLine chunk offset line
  | ahead {line : Nat} (later : ∀ start ∈ chunk.starts, offset < start)
      (last : chunk.lines.back? = some line) : HasLine chunk offset line
  | bare (none : chunk.starts = #[]) : HasLine chunk offset 0

theorem mem_begunBy (indexed : chunk.Indexed) {index : Nat} :
    index ∈ chunk.begunBy offset ↔ index < chunk.startedBy offset := by
  have window := indexed.window offset
  constructor
  · rintro ⟨start, found, le⟩
    rcases Array.getElem?_eq_some_iff.mp found with ⟨inside, rfl⟩
    by_contra behind
    have lt := window.above index inside (Nat.le_of_not_lt behind)
    simp only [Array.getD, inside, dif_pos] at lt
    exact absurd le (Nat.not_le_of_lt lt)
  · intro before
    have inside : index < chunk.starts.size := Nat.lt_of_lt_of_le before window.inside
    have le := window.below index before
    simp only [Array.getD, inside, dif_pos] at le
    exact ⟨_, Array.getElem?_eq_getElem inside, le⟩

theorem startedBy_eq_zero_iff (indexed : chunk.Indexed) :
    chunk.startedBy offset = 0 ↔ ∀ start ∈ chunk.starts, offset < start := by
  constructor
  · intro none start present
    rcases Array.mem_iff_getElem?.mp present with ⟨index, found⟩
    by_contra reached
    have begun := (mem_begunBy indexed).mp ⟨start, found, Nat.le_of_not_lt reached⟩
    rw [none] at begun
    exact Nat.not_lt_zero _ begun
  · intro later
    by_contra some
    rcases (mem_begunBy indexed).mpr (Nat.pos_of_ne_zero some) with ⟨start, found, le⟩
    exact Nat.not_le_of_lt (later start (Array.mem_of_getElem? found)) le

theorem Indexed.exists_hasLine (indexed : chunk.Indexed) (offset : Nat) :
    ∃ line, chunk.HasLine offset line := by
  cases begun : chunk.startedBy offset with
  | zero =>
    cases last : chunk.lines.back? with
    | none =>
      have noLines : chunk.lines.size = 0 := by simpa using last
      exact ⟨0, .bare (Array.size_eq_zero_iff.mp (indexed.size_eq.trans noLines))⟩
    | some line => exact ⟨line, .ahead ((startedBy_eq_zero_iff indexed).mp begun) last⟩
  | succ index =>
    have before : index < chunk.startedBy offset := begun ▸ Nat.lt_succ_self _
    have inside : index < chunk.lines.size :=
      indexed.size_eq ▸ Nat.lt_of_lt_of_le before (indexed.window offset).inside
    refine ⟨_, .within ⟨(mem_begunBy indexed).mpr before, ?_⟩ (Array.getElem?_eq_getElem inside)⟩
    intro other begunToo
    have earlier := (mem_begunBy indexed).mp begunToo
    omega

theorem HasLine.eq_lineAt {line : Nat} (hasLine : chunk.HasLine offset line)
    (indexed : chunk.Indexed) : chunk.lineAt offset = line := by
  cases hasLine with
  | @within index _ latest found =>
    have before := (mem_begunBy indexed).mp latest.1
    have last : chunk.startedBy offset - 1 ∈ chunk.begunBy offset :=
      (mem_begunBy indexed).mpr (by omega)
    have indexEq : chunk.startedBy offset - 1 = index :=
      Nat.le_antisymm (latest.2 last) (by omega)
    simp [lineAt, Nat.ne_of_gt (Nat.zero_lt_of_lt before), indexEq, found]
  | ahead later last =>
    simp [lineAt, (startedBy_eq_zero_iff indexed).mpr later, last]
  | bare none =>
    have begun : chunk.startedBy offset = 0 :=
      (startedBy_eq_zero_iff indexed).mpr (by simp [none])
    have noLines : chunk.lines = #[] :=
      Array.size_eq_zero_iff.mp (by rw [← indexed.size_eq, none]; rfl)
    simp [lineAt, begun, noLines]

/--
A chunk built up by any operations has its instructions in ascending order, inside of its code and
with a line each, and looking up a byte gives the line of the last instruction that starts at or
before it. In front of all instructions it gives the last line, and line zero if there are none.
-/
theorem lineAt_edits (edits : List (Edit κ)) :
    (edits.foldl edit empty).Indexed ∧ ∀ offset line,
      (edits.foldl edit empty).lineAt offset = line ↔
        (edits.foldl edit empty).HasLine offset line := by
  have indexed := indexed_edits edits
  refine ⟨indexed, fun offset line => ⟨?_, fun hasLine => hasLine.eq_lineAt indexed⟩⟩
  rintro rfl
  rcases indexed.exists_hasLine offset with ⟨line, hasLine⟩
  exact hasLine.eq_lineAt indexed ▸ hasLine

end StackScript.Chunk
