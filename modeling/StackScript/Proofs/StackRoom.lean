import StackScript.Proofs.Inward

/-!
# Room on the stack

Nothing is put on the stack without room for it, whatever the code is. So there is room for all the
values of a machine after any number of steps.
-/

namespace StackScript

variable {machine after : Machine}

theorem Exec.Leads.room {instruction : Instruction} {result : Option Value}
    (leads : Leads machine instruction (.ok result after)) (room : machine.HasRoom) :
    after.HasRoom := by
  rw [Machine.HasRoom] at room
  cases leads with
  | goesOn stays _ => exact stays.room room
  | prints top =>
    rw [top, Array.size_push] at room
    exact Nat.le_of_succ_le room
  | calls _ => exact room
  | returns _ fits =>
    rw [Machine.HasRoom, Array.size_push]
    exact fits
  | ends _ top _ =>
    rw [top, Array.size_push] at room
    rw [Machine.HasRoom, Array.size_shrink]
    exact Nat.le_trans (Nat.min_le_right _ _) (Nat.le_of_succ_le room)

namespace Machine.HasRoom

theorem tick (room : machine.HasRoom) (ran : machine.tick = .running after) : after.HasRoom := by
  rw [Machine.tick] at ran
  cases stepped : Exec.step machine with
  | ok result next =>
    rw [stepped] at ran
    rcases Exec.leads_of_step stepped with ⟨frame, ip, _, _, leads⟩
    cases result <;> cases ran
    exact leads.room room
  | error fault next =>
    rw [stepped] at ran
    cases ran

theorem advance {steps : Nat} (room : machine.HasRoom)
    (ran : machine.advance steps = .running after) : after.HasRoom := by
  induction steps generalizing machine with
  | zero =>
    cases ran
    exact room
  | succ steps ih =>
    rw [Machine.advance] at ran
    split at ran
    · next next ticked => exact ih (room.tick ticked) ran
    · cases ran

/-- A run never has more values on the stack than there is room for. -/
theorem interpret {script : Function} {steps : Nat}
    (ran : machine.interpret script steps = .running after) : after.HasRoom := by
  rw [Machine.interpret, load_eq] at ran
  split at ran
  · next loaded ready =>
    split at ready
    · next room =>
      cases ready
      have fits : (machine.loaded script).HasRoom := room
      exact fits.advance ran
    · cases ready
  · cases ran

end Machine.HasRoom

end StackScript
