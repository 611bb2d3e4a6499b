import StackScript.Proofs.Following

/-!
# Slots and scopes

The slots of a call hold the values of its scopes, the outermost variable first. The value below all
variables of a program has no name: it is the program itself, which the evaluation never reads.
-/

namespace StackScript

open Reference

namespace Reference

/-- The variables of the running call, the one of slot zero first. -/
def State.slots (state : State) : Bindings :=
  state.scopes.flatten.reverse

/-- The names of every scope. -/
def State.shape (state : State) : List (List String) :=
  state.scopes.map (·.map Prod.fst)

theorem State.names_eq (state : State) : state.shape.flatten = state.scopes.flatten.map Prod.fst :=
  List.map_flatten.symm

theorem State.length_slots (state : State) : state.slots.length = state.shape.flatten.length := by
  rw [names_eq, List.length_map, slots, List.length_reverse]

variable {name : String} {meaning : Meaning} {entries : Bindings} {slot : Nat}

theorem lookup_of_slotOf? (found : slotOf? name (entries.map Prod.fst) = some slot) :
    ∃ meaning, entries.lookup name = some meaning ∧
      entries.reverse[slot]? = some (name, meaning) := by
  induction entries with
  | nil => cases found
  | cons entry outer ih =>
    simp only [List.map_cons, slotOf?] at found
    split at found
    case isTrue named =>
      cases found
      subst named
      exact ⟨entry.2, by rw [List.lookup_cons_self], by simp⟩
    case isFalse other =>
      rcases ih found with ⟨meaning, looked, standing⟩
      have differs : (name == entry.1) = false := beq_false_of_ne (Ne.symm other)
      refine ⟨meaning, by rw [List.lookup_cons, differs]; exact looked, ?_⟩
      rw [List.reverse_cons, List.getElem?_append_left]
      · exact standing
      · exact (List.getElem?_eq_some_iff.mp standing).1

theorem lookup_of_not_slotOf? (missing : slotOf? name (entries.map Prod.fst) = none) :
    entries.lookup name = none := by
  induction entries with
  | nil => rfl
  | cons entry outer ih =>
    simp only [List.map_cons, slotOf?] at missing
    split at missing
    case isTrue => cases missing
    case isFalse other =>
      have differs : (name == entry.1) = false := beq_false_of_ne (Ne.symm other)
      rw [List.lookup_cons, differs]
      exact ih missing

theorem slotOf?_append (name : String) (inner outer : List String) :
    slotOf? name (inner ++ outer) =
      ((slotOf? name inner).map (· + outer.length)).or (slotOf? name outer) := by
  induction inner with
  | nil => rfl
  | cons entry rest ih =>
    simp only [List.cons_append, slotOf?]
    split
    · simp
    · exact ih

namespace Bindings

theorem assign?_of_slotOf? (meaning : Meaning)
    (found : slotOf? name (entries.map Prod.fst) = some slot) :
    ∃ changed, Bindings.assign? name meaning entries = some changed ∧
      changed.reverse = entries.reverse.set slot (name, meaning) ∧
      changed.map Prod.fst = entries.map Prod.fst ∧ slot < entries.length := by
  induction entries generalizing slot with
  | nil => cases found
  | cons entry outer ih =>
    simp only [List.map_cons, slotOf?] at found
    split at found
    case isTrue named =>
      cases found
      refine ⟨(name, meaning) :: outer, by simp [assign?, named], ?_, by simp [named], by simp⟩
      rw [List.reverse_cons, List.reverse_cons, List.set_append_right _ _ (by simp)]
      simp
    case isFalse other =>
      rcases ih found with ⟨changed, assigned, reverseEq, namesEq, inside⟩
      refine ⟨entry :: changed, by simp [assign?, other, assigned], ?_, by simp [namesEq], ?_⟩
      · rw [List.reverse_cons, List.reverse_cons, reverseEq, List.set_append_left]
        rwa [List.length_reverse]
      · exact Nat.lt_succ_of_lt inside

theorem assign?_of_not_slotOf? (meaning : Meaning)
    (missing : slotOf? name (entries.map Prod.fst) = none) :
    Bindings.assign? name meaning entries = none := by
  induction entries with
  | nil => rfl
  | cons entry outer ih =>
    simp only [List.map_cons, slotOf?] at missing
    split at missing
    case isTrue => cases missing
    case isFalse other => simp [assign?, other, ih missing]

end Bindings

variable {scopes : List Bindings}

theorem assignIn?_of_slotOf? (meaning : Meaning)
    (found : slotOf? name (scopes.flatten.map Prod.fst) = some slot) :
    ∃ changed, assignIn? name meaning scopes = some changed ∧
      changed.flatten.reverse = scopes.flatten.reverse.set slot (name, meaning) ∧
      changed.map (·.map Prod.fst) = scopes.map (·.map Prod.fst) ∧
      slot < scopes.flatten.length := by
  induction scopes generalizing slot with
  | nil => cases found
  | cons scope outer ih =>
    rw [List.flatten_cons, List.map_append, slotOf?_append] at found
    cases inner : slotOf? name (scope.map Prod.fst) with
    | some place =>
      rw [inner] at found
      simp only [Option.map_some, Option.some_or, Option.some.injEq, List.length_map] at found
      rcases Bindings.assign?_of_slotOf? meaning inner with
        ⟨changed, assigned, reverseEq, namesEq, inside⟩
      refine ⟨changed :: outer, by simp [assignIn?, assigned], ?_, by simp [namesEq], ?_⟩
      · rw [List.flatten_cons, List.reverse_append, reverseEq, List.flatten_cons,
          List.reverse_append, List.set_append_right _ _ (by rw [List.length_reverse]; omega)]
        simp [← found]
      · rw [List.flatten_cons, List.length_append]
        omega
    | none =>
      rw [inner] at found
      simp only [Option.map_none, Option.none_or] at found
      have skipped := Bindings.assign?_of_not_slotOf? meaning inner
      rcases ih found with ⟨changed, assigned, reverseEq, shapeEq, inside⟩
      refine ⟨scope :: changed, by simp [assignIn?, skipped, assigned], ?_,
        by simp [shapeEq], ?_⟩
      · rw [List.flatten_cons, List.reverse_append, reverseEq, List.flatten_cons,
          List.reverse_append, List.set_append_left _ _ (by simpa using inside)]
      · rw [List.flatten_cons, List.length_append]
        omega

theorem assignIn?_of_not_slotOf? (meaning : Meaning)
    (missing : slotOf? name (scopes.flatten.map Prod.fst) = none) :
    assignIn? name meaning scopes = none := by
  induction scopes with
  | nil => rfl
  | cons scope outer ih =>
    rw [List.flatten_cons, List.map_append, slotOf?_append, Option.or_eq_none_iff,
      Option.map_eq_none_iff] at missing
    simp [assignIn?, Bindings.assign?_of_not_slotOf? meaning missing.1, ih missing.2]

/-! ## Reading and assigning -/

variable {state : State}

theorem get_bind (next : State → Eval α) (state : State) :
    (get >>= next) state = next state state :=
  rfl

theorem find_of_local (known : state.scopes.flatten.lookup name = some meaning) :
    find name state = .ok meaning state := by
  rw [find, get_bind, known]
  rfl

theorem find_of_not_local (unknown : state.scopes.flatten.lookup name = none) :
    find name state =
      match state.globals[name]? with
      | some value => .ok value state
      | none => .error (.fault (.undefinedVariable name)) state := by
  rw [find, get_bind, unknown]
  cases state.globals[name]? <;> rfl

theorem assign_of_local (known : assignIn? name meaning state.scopes = some scopes) :
    assign name meaning state = .ok () { state with scopes } := by
  rw [assign, get_bind, known]
  rfl

theorem assign_of_not_local (unknown : assignIn? name meaning state.scopes = none) :
    assign name meaning state =
      match state.globals[name]? with
      | some _ => .ok () { state with globals := state.globals.insert name meaning }
      | none => .error (.fault (.undefinedVariable name)) state := by
  rw [assign, get_bind, unknown]
  simp only [Std.TreeMap.contains_eq_isSome_getElem?]
  cases state.globals[name]? <;> rfl

end Reference

/-! ## Stores -/

/-- Whether a slot holds what a variable has; the slot of a program itself does not count. -/
def Bound (library : List Function) (kind : DraftKind) (value : Value)
    (entry : String × Meaning) : Prop :=
  (kind = .script → entry.1 ≠ "") → Matches library value entry.2

section

variable {α β : Type} {R : α → β → Prop} {values : List α} {entries : List β} {value : α}
  {entry : β} {place : Nat}

theorem forall₂_getElem? (all : List.Forall₂ R values entries)
    (held : entries[place]? = some entry) :
    ∃ value, values[place]? = some value ∧ R value entry := by
  rcases List.getElem?_eq_some_iff.mp held with ⟨inside, rfl⟩
  have inValues : place < values.length := by rwa [all.length_eq]
  exact ⟨values[place], List.getElem?_eq_getElem inValues, all.get inValues inside⟩

theorem forall₂_set (related : R value entry) (place : Nat) (all : List.Forall₂ R values entries) :
    List.Forall₂ R (values.set place value) (entries.set place entry) := by
  induction all generalizing place with
  | nil => exact .nil
  | cons first rest ih =>
    cases place with
    | zero => exact .cons related rest
    | succ place => exact .cons first (ih place)

end

/-- Whether a store has the lowest `height` variables of a call in its slots. -/
structure Store.Shows (history : History) (kind : DraftKind) (height : Nat) (store : Store)
    (state : State) : Prop where
  slots : List.Forall₂ (Bound history.library kind) store.slots.toList (state.slots.take height)
  within : height ≤ state.slots.length
  reports : Reports history store.globals store.sink state

/-- Whether a store has all variables of a call in its slots, with names of that shape. -/
structure Store.Mirrors (history : History) (kind : DraftKind) (shape : List (List String))
    (store : Store) (state : State) : Prop where
  shape_eq : state.shape = shape
  shows : store.Shows history kind shape.flatten.length state

namespace Store.Mirrors

variable {history : History} {kind : DraftKind} {shape : List (List String)} {store : Store}
  {state : State} {name : String} {slot : Nat} {value : Value} {meaning : Meaning}

theorem forall_slots (mirrors : store.Mirrors history kind shape state) :
    List.Forall₂ (Bound history.library kind) store.slots.toList state.slots := by
  have all := mirrors.shows.slots
  rwa [← mirrors.shape_eq, ← state.length_slots, List.take_length] at all

theorem of_forall_slots (shapeEq : state.shape = shape)
    (all : List.Forall₂ (Bound history.library kind) store.slots.toList state.slots)
    (reports : Reports history store.globals store.sink state) :
    store.Mirrors history kind shape state := by
  refine ⟨shapeEq, ?_, ?_, reports⟩
  · rwa [← shapeEq, ← state.length_slots, List.take_length]
  · exact Nat.le_of_eq (by rw [← shapeEq, state.length_slots])

variable (mirrors : store.Mirrors history kind shape state)
include mirrors

theorem size_slots : store.slots.size = shape.flatten.length := by
  have lengthEq := mirrors.forall_slots.length_eq
  rwa [state.length_slots, mirrors.shape_eq, Array.length_toList] at lengthEq

theorem exists_slot (found : slotOf? name shape.flatten = some slot)
    (named : kind = .script → name ≠ "") :
    ∃ value meaning, store.slots[slot]? = some value ∧
      state.scopes.flatten.lookup name = some meaning ∧
      Matches history.library value meaning := by
  rw [← mirrors.shape_eq, state.names_eq] at found
  rcases lookup_of_slotOf? found with ⟨meaning, known, standing⟩
  rcases forall₂_getElem? mirrors.forall_slots standing with ⟨value, held, bound⟩
  rw [Array.getElem?_toList] at held
  exact ⟨value, meaning, held, known, bound named⟩

theorem lookup_eq_none (missing : slotOf? name shape.flatten = none) :
    state.scopes.flatten.lookup name = none := by
  rw [← mirrors.shape_eq, state.names_eq] at missing
  exact lookup_of_not_slotOf? missing

theorem set_slot (found : slotOf? name shape.flatten = some slot)
    (agree : Matches history.library value meaning) :
    slot < store.slots.size ∧ ∃ scopes, assignIn? name meaning state.scopes = some scopes ∧
      Mirrors history kind shape { store with slots := store.slots.setIfInBounds slot value }
        { state with scopes } := by
  have inSlots := mirrors.size_slots
  rw [← mirrors.shape_eq, state.names_eq] at found
  rcases assignIn?_of_slotOf? meaning found with ⟨scopes, assigned, slotsEq, shapeEq, inside⟩
  refine ⟨?_, scopes, assigned, of_forall_slots ?_ ?_ ?_⟩
  · rwa [inSlots, ← mirrors.shape_eq, state.names_eq, List.length_map]
  · rw [← mirrors.shape_eq]
    exact shapeEq
  · simp only [State.slots, slotsEq, Array.toList_setIfInBounds]
    exact forall₂_set (fun _ => agree) slot mirrors.forall_slots
  · exact { mirrors.shows.reports with }

theorem assignIn?_eq_none (missing : slotOf? name shape.flatten = none) (meaning : Meaning) :
    assignIn? name meaning state.scopes = none := by
  rw [← mirrors.shape_eq, state.names_eq] at missing
  exact assignIn?_of_not_slotOf? meaning missing

end Store.Mirrors

/-! ## Scopes -/

/-- More names in the innermost scope. -/
def deepen (names : List String) : List (List String) → List (List String)
  | [] => []
  | inner :: outer => (names ++ inner) :: outer

@[simp] theorem deepen_nil (shape : List (List String)) : deepen [] shape = shape := by
  cases shape <;> rfl

theorem deepen_deepen (names more : List String) (shape : List (List String)) :
    deepen more (deepen names shape) = deepen (more ++ names) shape := by
  cases shape <;> simp [deepen]

theorem flatten_deepen {shape : List (List String)} (names : List String) (inside : shape ≠ []) :
    (deepen names shape).flatten = names ++ shape.flatten := by
  cases shape with
  | nil => exact absurd rfl inside
  | cons inner outer => simp [deepen]

@[simp] theorem length_deepen (names : List String) (shape : List (List String)) :
    (deepen names shape).length = shape.length := by
  cases shape <;> rfl

namespace Reference.State

def leave (state : State) : State :=
  { state with scopes := state.scopes.tail }

def enter (state : State) : State :=
  { state with scopes := [] :: state.scopes }

theorem shape_leave (state : State) : state.leave.shape = state.shape.tail :=
  List.map_tail

theorem take_slots_leave {state : State} {names : List String} {shape : List (List String)}
    {height : Nat} (shapeEq : state.shape = names :: shape)
    (inside : height ≤ shape.flatten.length) :
    state.leave.slots.take height = state.slots.take height := by
  have outside : state.leave.shape = shape := by rw [shape_leave, shapeEq, List.tail_cons]
  rcases state with ⟨scopes, globals, output⟩
  cases scopes with
  | nil => cases shapeEq
  | cons scope outer =>
    rw [← outside, ← length_slots] at inside
    simp only [leave, slots, List.tail_cons, List.flatten_cons, List.reverse_append] at inside ⊢
    rw [List.take_append_of_le_length inside]

end Reference.State

/-- The slots below a height. -/
def Store.cut (store : Store) (height : Nat) : Store :=
  { store with slots := store.slots.take height }

namespace Store

variable {history : History} {kind : DraftKind} {shape : List (List String)} {store : Store}
  {state : State} {names : List String} {name : String} {value : Value} {meaning : Meaning}
  {height lower : Nat}

theorem Shows.cut (shows : store.Shows history kind height state) (below : lower ≤ height) :
    (store.cut lower).Shows history kind lower state := by
  refine ⟨?_, Nat.le_trans below shows.within, shows.reports⟩
  have some := List.forall₂_take lower shows.slots
  rw [List.take_take, Nat.min_eq_left below] at some
  simpa [Store.cut] using some

theorem Shows.leave (shows : store.Shows history kind height state)
    (shapeEq : state.shape = names :: shape) (inside : height ≤ shape.flatten.length) :
    store.Shows history kind height state.leave := by
  refine ⟨?_, ?_, { shows.reports with }⟩
  · rw [State.take_slots_leave shapeEq inside]
    exact shows.slots
  · rw [State.length_slots, State.shape_leave, shapeEq]
    exact inside

theorem Mirrors.leave (mirrors : store.Mirrors history kind (names :: shape) state) :
    (store.cut shape.flatten.length).Mirrors history kind shape state.leave := by
  refine ⟨?_, (mirrors.shows.cut ?_).leave mirrors.shape_eq (Nat.le_refl _)⟩
  · rw [State.shape_leave, mirrors.shape_eq, List.tail_cons]
  · rw [List.flatten_cons, List.length_append]
    exact Nat.le_add_left _ _

theorem Mirrors.enter (mirrors : store.Mirrors history kind shape state) :
    store.Mirrors history kind ([] :: shape) state.enter := by
  apply Mirrors.of_forall_slots
  · exact congrArg ([] :: ·) mirrors.shape_eq
  · exact mirrors.forall_slots
  · exact { mirrors.shows.reports with }

theorem Mirrors.declare_local (mirrors : store.Mirrors history kind shape state)
    (inside : 1 < shape.length) (name : String)
    (agree : Matches history.library value meaning) :
    ∃ after, declare name meaning state = .ok () after ∧
      Mirrors history kind (deepen [name] shape)
        { store with slots := store.slots.push value } after := by
  have shapeEq := mirrors.shape_eq
  have slots := mirrors.forall_slots
  have reports := mirrors.shows.reports
  rcases state with ⟨_ | ⟨scope, _ | ⟨around, outer⟩⟩, globals, output⟩
  · subst shapeEq
    exact absurd inside (by simp [State.shape])
  · subst shapeEq
    exact absurd inside (by simp [State.shape])
  · refine ⟨⟨((name, meaning) :: scope) :: around :: outer, globals, output⟩, rfl, ?_⟩
    apply Mirrors.of_forall_slots
    · subst shapeEq
      rfl
    · have added := List.rel_append slots
        (.cons (fun _ => agree : Bound history.library kind value (name, meaning)) .nil)
      simpa [State.slots] using added
    · exact { reports with }

theorem Mirrors.declare_global (mirrors : store.Mirrors history kind shape state)
    (outside : shape.length ≤ 1) (name : String)
    (agree : Matches history.library value meaning) :
    ∃ after, declare name meaning state = .ok () after ∧
      Mirrors history kind shape { store with globals := store.globals.insert name value }
        after := by
  have shapeEq := mirrors.shape_eq
  refine ⟨{ state with globals := state.globals.insert name meaning }, ?_, ?_⟩
  · rcases state with ⟨_ | ⟨scope, _ | ⟨around, outer⟩⟩, globals, output⟩
    · rfl
    · rfl
    · subst shapeEq
      exact absurd outside (by simp [State.shape])
  · exact .of_forall_slots shapeEq mirrors.forall_slots (mirrors.shows.reports.insert name agree)

end Store

end StackScript
