import StackScript.Proofs.Totality

/-!
# Tables of open functions

Wherever a procedure of the compiler is called or returns, the tables of all functions that are
being written are in order. A local is without a value only while the expression is read that it
gets its value from.
-/

namespace StackScript

/-- Whether a local has a value, and is open around another one that is not its namesake. -/
def Local.Around (inner outer : Local) : Prop :=
  ∃ depth, outer.depth = some depth ∧ ∀ own, inner.depth = some own →
    depth ≤ own ∧ (own = depth → 1 ≤ own → inner.name ≠ outer.name)

/-- Whether the tables of a function under construction, innermost first, are in order. -/
structure Draft.InOrder (draft : Draft) : Prop where
  numbered : ∀ (place : Nat) (scope : Scope), draft.scopes.reverse[place]? = some scope →
    scope.depth = place + 1
  few : draft.locals.length ≤ 256
  bottom : ∃ entry, draft.locals.getLast? = some entry ∧ entry.depth = some 0
  around : draft.locals.Pairwise Local.Around
  inside : ∀ entry ∈ draft.locals, ∀ own, entry.depth = some own → own ≤ draft.scopes.length
  breaks : ∀ scope ∈ draft.scopes, ∀ jump ∈ scope.breaks,
    scope.kind = .loop ∧ draft.chunk.Unfilled jump
  once : (draft.scopes.flatMap Scope.breaks).Nodup
  loops : ∀ scope ∈ draft.scopes, scope.kind = .loop → draft.chunk.Boundary scope.loopStart
  names : ∀ (name : String) (place : UInt8), draft.names[name]? = some place →
    draft.chunk.constants[place.toNat]? = some (.string name)

/-- Whether all tables are in order, with a local that waits for its value only in `calls`. -/
structure Compiler.InOrder (calls : List Procedure) (compiler : Compiler) : Prop where
  draft : compiler.draft.InOrder
  waiting : ∀ entry ∈ compiler.draft.locals, entry.depth = none → Procedure.Initializing calls
  around : ∀ outer ∈ compiler.enclosing, outer.InOrder ∧ ∀ entry ∈ outer.locals, entry.depth ≠ none

theorem Scope.Nested.depth_eq {scopes : List Scope} (nested : Nested scopes) {place : Nat}
    {scope : Scope} (found : scopes.reverse[place]? = some scope) : scope.depth = place + 1 := by
  induction scopes with
  | nil => cases found
  | cons innermost outer ih =>
    rw [List.reverse_cons, List.getElem?_append, List.length_reverse] at found
    split at found
    · exact ih nested.2 found
    · rcases List.getElem?_eq_some_iff.mp found with ⟨short, rfl⟩
      rw [List.length_singleton] at short
      have placeEq : place = outer.length := by omega
      simpa [placeEq] using nested.1

namespace Local

variable {depth : Nat} {locals : List Local}

theorem Stacked.depth_ne_none (stacked : Stacked depth locals) :
    ∀ entry ∈ locals, entry.depth ≠ none := by
  intro entry present missing
  rcases stacked.exists_depth entry present with ⟨own, _, depthEq⟩
  cases missing.symm.trans depthEq

theorem Stacked.around {name : String} {own : Option Nat} (stacked : Stacked (depth + 1) locals)
    (fresh : ⟨name, some (depth + 1)⟩ ∉ locals) (ownEq : ∀ given ∈ own, given = depth + 1) :
    ∀ entry ∈ locals, Around ⟨name, own⟩ entry := by
  intro entry present
  rcases stacked.exists_depth entry present with ⟨outer, le, depthEq⟩
  refine ⟨outer, depthEq, fun given isOwn => ?_⟩
  cases ownEq given isOwn
  refine ⟨le, fun same _ sameName => fresh ?_⟩
  rw [same, ← depthEq, show name = entry.name from sameName]
  exact present

theorem Stacked.inOrder (stacked : Stacked depth locals) :
    (∃ entry, locals.getLast? = some entry ∧ entry.depth = some 0) ∧ locals.Pairwise Around := by
  induction stacked with
  | bottom name => exact ⟨⟨_, rfl, rfl⟩, List.pairwise_singleton _ _⟩
  | scope _ ih => exact ih
  | declared outer fresh ih =>
    rcases ih with ⟨⟨entry, isLast, atBottom⟩, around⟩
    refine ⟨⟨entry, by rw [List.getLast?_cons, isLast]; rfl, atBottom⟩, ?_⟩
    exact List.pairwise_cons.mpr ⟨outer.around fresh (by simp), around⟩

theorem Tabled.inOrder (tabled : Tabled depth locals) :
    ((∃ entry, locals.getLast? = some entry ∧ entry.depth = some 0) ∧ locals.Pairwise Around) ∧
      ∀ entry ∈ locals, ∀ own, entry.depth = some own → own ≤ depth := by
  have bounded {locals : List Local} (stacked : Stacked depth locals) :
      ∀ entry ∈ locals, ∀ own, entry.depth = some own → own ≤ depth := by
    intro entry present own isOwn
    rcases stacked.exists_depth entry present with ⟨given, le, depthEq⟩
    cases isOwn.symm.trans depthEq
    exact le
  cases tabled with
  | closed stacked => exact ⟨stacked.inOrder, bounded stacked⟩
  | waiting outer fresh =>
    rcases outer.inOrder with ⟨⟨entry, isLast, atBottom⟩, around⟩
    refine ⟨⟨⟨entry, by rw [List.getLast?_cons, isLast]; rfl, atBottom⟩, ?_⟩, ?_⟩
    · exact List.pairwise_cons.mpr ⟨outer.around fresh (by simp), around⟩
    · exact List.forall_mem_cons.mpr ⟨by simp, bounded outer⟩

end Local

theorem Draft.Tidy.inOrder {draft : Draft} (tidy : draft.Tidy) : draft.InOrder where
  numbered _ _ := tidy.nested.depth_eq
  few := tidy.few
  bottom := tidy.tabled.inOrder.1.1
  around := tidy.tabled.inOrder.1.2
  inside := tidy.tabled.inOrder.2
  breaks scope present := (tidy.scopes scope present).breaks
  once := tidy.apart.imp fun apart same => by
    rw [same, Apart] at apart
    omega
  loops scope present _ := (tidy.scopes scope present).loopStart
  names := tidy.names

theorem Compiler.Tidy.inOrder {calls : List Procedure} {compiler : Compiler}
    (tidy : compiler.Tidy calls) : compiler.InOrder calls where
  draft := tidy.draft.inOrder
  waiting entry present missing :=
    tidy.closed.resolve_left fun closed => closed.depth_ne_none entry present missing
  around outer present :=
    ⟨(tidy.around outer present).1.inOrder, (tidy.around outer present).2.depth_ne_none⟩

/--
Wherever the compiler starts to read a declaration, a statement, an expression or anything else that
is a procedure of its own, and wherever it has read it without an error, all of its tables are in
order. The calls that are open there are those that were noted before and have not returned.
-/
theorem compile_tables (text : String) :
    (observe ((tokens text).length + 1) callDepth text).outcome = some (compile text) ∧
      (∀ front back caller procedure entry,
        (observe ((tokens text).length + 1) callDepth text).observations =
            front ++ .called caller procedure entry :: back ∨
          (observe ((tokens text).length + 1) callDepth text).observations =
            front ++ .entered caller procedure entry :: back →
        entry.InOrder (front.foldl Observation.track [.program])) ∧
      ∀ front back procedure entry exit,
        (observe ((tokens text).length + 1) callDepth text).observations =
          front ++ .returned procedure entry true exit :: back →
        exit.InOrder (front.foldl Observation.track [.program]).tail := by
  have enough := Nat.lt_succ_self (tokens text).length
  have proper := (observe_shows enough (Nat.le_refl callDepth)).proper
  refine ⟨outcome_observe enough (Nat.le_refl _), ?_, ?_⟩
  · rintro front back caller procedure entry (split | split)
    all_goals
      rw [split] at proper
      have noted := (Observation.allProper_append.mp proper).2.1
    · exact noted.2.2.2.inOrder
    · exact noted.2.inOrder
  · intro front back procedure entry exit split
    rw [split] at proper
    exact ((Observation.allProper_append.mp proper).2.1.2.2.1 rfl).inOrder

end StackScript
