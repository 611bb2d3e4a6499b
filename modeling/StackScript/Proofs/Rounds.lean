import StackScript.Proofs.Building
import StackScript.Proofs.Reading.Program
import StackScript.Proofs.Resemblance

/-!
# Enough rounds

The compiler never gives a token back. A loop may have as many rounds as there are tokens ahead,
and as each round reads one, more rounds make no difference.
-/

namespace StackScript

namespace Compiler

variable {compiler after : Compiler}

theorem shift_of_nil (none : compiler.upcoming = []) :
    compiler.shift = { compiler with previous := compiler.current } := by
  rw [shift, none]

theorem shift_of_cons {token : Token} {rest : List Token}
    (ahead : compiler.upcoming = token :: rest) :
    compiler.shift =
      { compiler with previous := compiler.current, current := token, upcoming := rest } := by
  rw [shift, ahead]

theorem shift_suffix (compiler : Compiler) : compiler.shift.stream <:+ compiler.stream := by
  cases ahead : compiler.upcoming with
  | nil =>
    rw [shift_of_nil ahead]
    exact List.suffix_refl _
  | cons token rest =>
    rw [shift_of_cons ahead, stream, stream, ahead]
    exact List.suffix_cons _ _

theorem Ends.of_suffix (ends : compiler.Ends) (onward : after.stream <:+ compiler.stream) :
    after.Ends := by
  rcases onward with ⟨taken, whole⟩
  have reads : { after with current := compiler.current, upcoming := compiler.upcoming }.Reads taken
      after := ⟨whole.symm, rfl⟩
  exact reads.ends ends

theorem upcoming_le_of_suffix (onward : after.stream <:+ compiler.stream) :
    after.upcoming.length ≤ compiler.upcoming.length := by
  have shorter := onward.length_le
  simp only [stream, List.length_cons] at shorter
  omega

end Compiler

namespace Compile

variable {α β : Type} {compiler after : Compiler} {bound others : List Token} {item : α → Compile α}
  {more : Compile Bool} {round : Compile Unit}

/-- The state that an action has come to, whether it has succeeded or failed. -/
def reached : EStateM.Result CompileError Compiler α → Compiler
  | .ok _ after => after
  | .error _ after => after

/-- Whether no token is given back. -/
def Onward (action : Compile α) : Prop :=
  ∀ compiler, (reached (action compiler)).stream <:+ compiler.stream

namespace Onward

variable {action : Compile α}

theorem of_ok {value : α} (onward : Onward action) (ran : action compiler = .ok value after) :
    after.stream <:+ compiler.stream := by
  have leads := onward compiler
  rw [ran] at leads
  exact leads

theorem bind {next : α → Compile β} (first : Onward action)
    (second : ∀ value, Onward (next value)) : Onward (action >>= next) := by
  intro compiler
  have here := first compiler
  rw [bind_apply]
  cases ran : action compiler with
  | ok value after =>
    rw [ran] at here
    exact (second value after).trans here
  | error error after =>
    rw [ran] at here
    exact here

theorem ofPaired {same : α → β → Prop} {other : Compile β}
    (paired : ∀ compiler, Paired .same same compiler compiler (action compiler) (other compiler)) :
    Onward action := by
  intro compiler
  have stands := paired compiler
  generalize action compiler = result at stands
  generalize other compiler = result' at stands
  cases stands with
  | ok _ stays => exact ⟨[], stays.stream_eq.symm⟩
  | error _ stays => exact ⟨[], stays.stream_eq.symm⟩

theorem ofUniform (uniform : Uniform .same action) : Onward action :=
  .ofPaired fun compiler => uniform compiler compiler (.refl compiler)

theorem advance : Onward advance := by
  intro compiler
  simp only [Compile.advance]
  split
  · exact compiler.shift_suffix
  · exact compiler.shift_suffix

theorem nested {body : Compile Unit} (inside : Onward body) : Onward (nested body) := by
  intro compiler
  have here := inside { compiler with nesting := compiler.nesting + 1 }
  rw [Compile.nested]
  split
  · generalize body { compiler with nesting := compiler.nesting + 1 } = result at here
    cases result with
    | ok value after => exact here
    | error error after => exact here
  · exact List.suffix_refl _

end Onward

/-! ## Rounds of a loop -/

theorem repeatWithin_congr (more : Compile Bool) (round : Compile Unit)
    (lengthEq : bound.length = others.length) :
    repeatWithin more round bound = repeatWithin more round others := by
  induction bound generalizing others with
  | nil => rw [List.length_eq_zero_iff.mp lengthEq.symm]
  | cons _ bound ih =>
    cases others with
    | nil => cases lengthEq
    | cons _ others => rw [repeatWithin, repeatWithin, ih (Nat.succ.inj lengthEq)]

theorem repeatWithin_atEnd (stays : StaysInText more) (atEnd : compiler.current.kind = .endOfText) :
    repeatWithin more round bound compiler = (do let _ ← more; pure ()) compiler := by
  cases bound with
  | nil => rfl
  | cons _ bound =>
    rw [repeatWithin, bind_apply, bind_apply]
    cases asked : more compiler with
    | error error after => rfl
    | ok goesOn after =>
      cases goesOn with
      | true => exact absurd atEnd (stays compiler after asked).2
      | false => rfl

/-- Whether each round reads. -/
def Reading (round : Compile Unit) : Prop :=
  ∀ compiler after : Compiler, compiler.Ends → compiler.current.kind ≠ .endOfText →
    round compiler = .ok () after → after.upcoming.length < compiler.upcoming.length

theorem repeatWithin_enough (stays : StaysInText more) (does : Onward round) (reads : Reading round)
    (ends : compiler.Ends) (enough : compiler.upcoming.length ≤ bound.length)
    (enoughToo : compiler.upcoming.length ≤ others.length) :
    repeatWithin more round bound compiler = repeatWithin more round others compiler := by
  induction bound generalizing others compiler with
  | nil =>
    have atEnd := ends.atEnd_iff.mpr (List.length_eq_zero_iff.mp (Nat.le_zero.mp enough))
    rw [repeatWithin_atEnd stays atEnd, repeatWithin_atEnd stays atEnd]
  | cons _ bound ih =>
    cases others with
    | nil =>
      have atEnd := ends.atEnd_iff.mpr (List.length_eq_zero_iff.mp (Nat.le_zero.mp enoughToo))
      rw [repeatWithin_atEnd stays atEnd, repeatWithin_atEnd stays atEnd]
    | cons _ others =>
      rw [repeatWithin, repeatWithin, bind_apply, bind_apply]
      cases asked : more compiler with
      | error error after => rfl
      | ok goesOn after =>
        cases goesOn with
        | false => rfl
        | true =>
          rcases stays compiler after asked with ⟨rfl, goes⟩
          simp only [if_true]
          rw [bind_apply, bind_apply]
          cases ran : round after with
          | error error last => rfl
          | ok value last =>
            have fewer := reads after last ends goes ran
            simp only [List.length_cons] at enough enoughToo
            exact ih (ends.of_suffix (does.of_ok ran)) (by omega) (by omega)

theorem reading_read {next : Token.Kind → Compile Unit} (leads : ∀ kind, Onward (next kind)) :
    Reading (do let kind ← lookahead; advance; next kind) := by
  intro compiler after ends more ran
  rcases bind_eq_ok.mp ran with ⟨kind, _, looked, ran⟩
  rcases lookahead_eq_ok.mp looked with ⟨rfl, rfl⟩
  rcases bind_eq_ok.mp ran with ⟨_, middle, advanced, ran⟩
  have fewer := (advance_advances advanced ends more).reads.upcoming_lt (List.cons_ne_nil _ _)
  exact Nat.lt_of_le_of_lt (Compiler.upcoming_le_of_suffix ((leads _).of_ok ran)) fewer

theorem reading_declaration (levels : Nat) : Reading (declaration (.level levels)) := by
  intro compiler after ends _ ran
  rcases declaration_read (Parser.level_sound levels) ends ran
    with ⟨tokens, _, reads, ⟨_, derives⟩, _⟩
  exact reads.upcoming_lt derives.declaration_ne_nil

/-! ## Items of a list -/

theorem separatedWithin_congr (state : α) (lengthEq : bound.length = others.length) :
    separatedWithin item bound state = separatedWithin item others state := by
  induction bound generalizing others state with
  | nil => rw [List.length_eq_zero_iff.mp lengthEq.symm]
  | cons _ bound ih =>
    cases others with
    | nil => cases lengthEq
    | cons _ others =>
      simp only [separatedWithin, fun state => ih state (Nat.succ.inj lengthEq)]

theorem separatedWithin_atEnd {state : α} (each : ∀ state, Onward (item state))
    (ends : compiler.Ends) (none : compiler.upcoming = []) :
    separatedWithin item bound state compiler = item state compiler := by
  cases bound with
  | nil => rfl
  | cons _ bound =>
    rw [separatedWithin, bind_apply]
    cases ran : item state compiler with
    | error error after => rfl
    | ok next after =>
      have onward := (each state).of_ok ran
      have shorter := Compiler.upcoming_le_of_suffix onward
      rw [none] at shorter
      have noneToo := List.length_eq_zero_iff.mp (Nat.le_zero.mp shorter)
      have atEnd : after.current.kind = .endOfText :=
        (ends.of_suffix onward).atEnd_iff.mpr noneToo
      have stops : accept .comma after = .ok false after := by
        rw [accept, bind_of_ok (show lookahead after = .ok _ after from rfl), atEnd]
        rfl
      simp only [bind_of_ok stops]
      rfl

theorem separatedWithin_enough {state : α} (each : ∀ state, Onward (item state))
    (ends : compiler.Ends) (enough : compiler.upcoming.length ≤ bound.length)
    (enoughToo : compiler.upcoming.length ≤ others.length) :
    separatedWithin item bound state compiler = separatedWithin item others state compiler := by
  induction bound generalizing others compiler state with
  | nil =>
    have none := List.length_eq_zero_iff.mp (Nat.le_zero.mp enough)
    rw [separatedWithin_atEnd each ends none, separatedWithin_atEnd each ends none]
  | cons _ bound ih =>
    cases others with
    | nil =>
      have none := List.length_eq_zero_iff.mp (Nat.le_zero.mp enoughToo)
      rw [separatedWithin_atEnd each ends none, separatedWithin_atEnd each ends none]
    | cons _ others =>
      rw [separatedWithin, separatedWithin, bind_apply, bind_apply]
      cases ran : item state compiler with
      | error error after => rfl
      | ok next after =>
        have onward := (each state).of_ok ran
        have shorter := Compiler.upcoming_le_of_suffix onward
        have endsAfter := ends.of_suffix onward
        simp only [bind_apply]
        cases accepted : accept .comma after with
        | error error last => rfl
        | ok goesOn last =>
          rcases accept_advances accepted endsAfter (by decide) with
            ⟨rfl, _, advances⟩ | ⟨rfl, _, rfl⟩
          · have fewer := advances.reads.upcoming_lt (List.cons_ne_nil _ _)
            simp only [List.length_cons] at enough enoughToo
            exact ih (advances.reads.ends endsAfter) (by omega) (by omega)
          · rfl

end Compile

end StackScript
