import StackScript.Machine
import StackScript.Proofs.Layout
import StackScript.Proofs.Semantics

/-!
# Values of the machine and of the evaluation

The machine knows a function by its code and by the places in pools that lead to it, the evaluation
by its tree and by how many functions were declared before it. Both single out the same function of
a script. A library lists the scripts that were loaded so far.
-/

namespace StackScript

open Reference

/-- The function of a script at places in pools, which are also given by the ranks of functions. -/
inductive Function.Located (script : Function) : List Nat → List Nat → Function → Prop where
  | script : Located script [] [] script
  | inside {holder function : Function} {path sites : List Nat} {place : Nat}
      (outer : Located script path sites holder)
      (held : holder.chunk.constants[place]? = some (.function function)) :
      Located script (place :: path) (holder.chunk.rank place :: sites) function

namespace Chunk

variable {chunk : Chunk Constant} {place other : Nat} {function another : Function}

theorem rank_lt (held : chunk.constants[place]? = some (.function function))
    (before : place < other) : chunk.rank place < chunk.rank other := by
  have counted : (chunk.constants.toList.take (place + 1)).countP (·.function?.isSome) =
      chunk.rank place + 1 := by
    rw [← Array.getElem?_toList] at held
    simp [List.take_add_one, held, rank, Datum.function?]
  have further : (chunk.constants.toList.take (place + 1)).countP (·.function?.isSome) ≤
      chunk.rank other :=
    (List.take_sublist_take_left before).countP_le
  omega

theorem eq_of_rank_eq (held : chunk.constants[place]? = some (.function function))
    (heldToo : chunk.constants[other]? = some (.function another))
    (same : chunk.rank place = chunk.rank other) : place = other := by
  apply Nat.le_antisymm
  · apply Nat.le_of_not_lt
    intro after
    exact absurd same (Nat.ne_of_gt (rank_lt heldToo after))
  · apply Nat.le_of_not_lt
    intro before
    exact absurd same (Nat.ne_of_lt (rank_lt held before))

end Chunk

namespace Function.Located

variable {script function another : Function} {path others sites remaining : List Nat}

theorem of_path_eq (first : script.Located path sites function)
    (second : script.Located path remaining another) : sites = remaining ∧ function = another := by
  induction first generalizing remaining another with
  | script =>
    cases second
    exact ⟨rfl, rfl⟩
  | inside outer held ih =>
    cases second with
    | inside outerToo heldToo =>
      rcases ih outerToo with ⟨rfl, rfl⟩
      rw [held] at heldToo
      cases heldToo
      exact ⟨rfl, rfl⟩

theorem of_sites_eq (first : script.Located path sites function)
    (second : script.Located others sites another) : path = others ∧ function = another := by
  induction first generalizing others another with
  | script =>
    cases second
    exact ⟨rfl, rfl⟩
  | @inside holder function path sites place outer held ih =>
    generalize sitesEq : holder.chunk.rank place :: sites = reached at second
    cases second with
    | script => cases sitesEq
    | inside outerToo heldToo =>
      rcases List.cons.inj sitesEq with ⟨rankEq, restEq⟩
      subst restEq
      rcases ih outerToo with ⟨rfl, rfl⟩
      have placeEq := Chunk.eq_of_rank_eq held heldToo rankEq
      subst placeEq
      rw [held] at heldToo
      cases heldToo
      exact ⟨rfl, rfl⟩

end Function.Located

/-- Whether a function that the machine has loaded is the one the evaluation knows by its tree. -/
structure Known (library : List Function) (callable : Callable) (routine : Routine) : Prop where
  run_eq : callable.origin.run = routine.origin.run
  located : ∃ script, library[callable.origin.run]? = some script ∧
    script.Located callable.origin.path routine.origin.path callable.function
  name_eq : callable.function.name = routine.name
  arity_eq : callable.function.arity = routine.parameters.length
  placed : routine.body.Placed
  implements : ∃ marks, callable.function.chunk.Implements
    (.function routine.name routine.parameters) routine.body marks

/-- Whether a value of the machine is a value of the evaluation. -/
inductive Matches (library : List Function) : Value → Meaning → Prop where
  | nil : Matches library .nil .nil
  | bool (value : Bool) : Matches library (.bool value) (.bool value)
  | number (value : Float) : Matches library (.number value) (.number value)
  | string (text : String) : Matches library (.string text) (.string text)
  | function {callable : Callable} {routine : Routine} (known : Known library callable routine) :
      Matches library (.function callable) (.function routine)

/-- Whether global variables are those of an evaluation. -/
def GlobalsMatch (library : List Function) (globals : Globals)
    (meanings : Std.TreeMap String Meaning) : Prop :=
  ∀ name : String, Option.Rel (Matches library) globals[name]? meanings[name]?

variable {library : List Function}

namespace Known

variable {callable other : Callable} {routine another : Routine}

theorem extend (known : Known library callable routine) (script : Function) :
    Known (library ++ [script]) callable routine := by
  rcases known.located with ⟨holder, found, located⟩
  refine { known with located := ⟨holder, ?_, located⟩ }
  rw [List.getElem?_append_left (List.getElem?_eq_some_iff.mp found).1]
  exact found

theorem origin_eq_iff (known : Known library callable routine)
    (knownToo : Known library other another) :
    callable.origin = other.origin ↔ routine.origin = another.origin := by
  rcases known.located with ⟨script, found, located⟩
  rcases knownToo.located with ⟨scriptToo, foundToo, locatedToo⟩
  have runEq := known.run_eq
  have runEqToo := knownToo.run_eq
  rcases callable with ⟨function, run, path⟩
  rcases other with ⟨functionToo, runToo, pathToo⟩
  rcases routine with ⟨_, _, _, runOf, sites⟩
  rcases another with ⟨_, _, _, runOfToo, sitesToo⟩
  simp only at found located foundToo locatedToo runEq runEqToo
  subst runEq runEqToo
  simp only [Origin.mk.injEq]
  constructor
  · rintro ⟨rfl, rfl⟩
    rw [found] at foundToo
    cases foundToo
    exact ⟨rfl, (located.of_path_eq locatedToo).1⟩
  · rintro ⟨rfl, rfl⟩
    rw [found] at foundToo
    cases foundToo
    exact ⟨rfl, (located.of_sites_eq locatedToo).1⟩

end Known

namespace Matches

variable {value other : Value} {meaning another : Meaning}

variable (agree : Matches library value meaning)
include agree

theorem extend (script : Function) : Matches (library ++ [script]) value meaning := by
  cases agree with
  | function known => exact .function (known.extend script)
  | _ => constructor

theorem isFalsey_eq : value.isFalsey = meaning.isFalsey := by
  cases agree <;> rfl

theorem display_eq : Value.display value = display meaning := by
  cases agree with
  | function known =>
    simp [Value.display, display, Datum.display, Function.display, Function.isScript,
      known.name_eq]
  | _ => rfl

theorem same_eq (agreeToo : Matches library other another) :
    Value.same value other =
      Datum.alike (fun one other => one.origin == other.origin) meaning another := by
  cases agree <;> cases agreeToo
  case function.function known _ _ knownToo =>
      simp only [Value.same, Datum.alike]
      rw [Bool.eq_iff_iff, beq_iff_eq, beq_iff_eq]
      exact known.origin_eq_iff knownToo
  all_goals rfl

end Matches

theorem GlobalsMatch.extend {globals : Globals} {meanings : Std.TreeMap String Meaning}
    (agree : GlobalsMatch library globals meanings) (script : Function) :
    GlobalsMatch (library ++ [script]) globals meanings := by
  intro name
  have rel := agree name
  generalize globals[name]? = value at rel
  generalize meanings[name]? = meaning at rel
  cases rel with
  | none => exact .none
  | some matched => exact .some (matched.extend script)

/-! ## Operations -/

/-- Whether operations agree. -/
def Yields (library : List Function) : Except Fault Value → Except Fault Meaning → Prop
  | .ok value, .ok meaning => Matches library value meaning
  | .error fault, .error reason => fault = reason
  | _, _ => False

namespace Matches

variable {value other : Value} {meaning another : Meaning}

theorem plus (agree : Matches library value meaning) (agreeToo : Matches library other another) :
    Yields library (Datum.plus value other) (Datum.plus meaning another) := by
  cases agree <;> cases agreeToo
  case number.number => exact .number _
  case string.string => exact .string _
  all_goals rfl

theorem onNumbers {operation : Float → Float → Value} {meant : Float → Float → Meaning}
    (agree : Matches library value meaning) (agreeToo : Matches library other another)
    (operates : ∀ left right, Matches library (operation left right) (meant left right)) :
    Yields library (Datum.onNumbers operation value other)
      (Datum.onNumbers meant meaning another) := by
  cases agree <;> cases agreeToo
  case number.number => exact operates _ _
  all_goals rfl

theorem negative (agree : Matches library value meaning) :
    Yields library (Datum.negative value) (Datum.negative meaning) := by
  cases agree
  case number => exact .number _
  all_goals rfl

end Matches

end StackScript
