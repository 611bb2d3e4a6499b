import StackScript.Chunk

/-!
# The line table

Which source line a byte of code stems from. The first bytes of the instructions are in
ascending order, so the instruction that holds a byte is found by bisection.
-/

namespace StackScript.Chunk

variable {κ : Type}

/--
How many of the ascending `starts` lie at or before `offset`, given that those below `low` do
and those from `high` on do not.
-/
def bisect (starts : Array Nat) (offset low high : Nat) : Nat :=
  if low < high then
    let middle := (low + high) / 2
    if starts.getD middle 0 ≤ offset then bisect starts offset (middle + 1) high
    else bisect starts offset low middle
  else low
termination_by high - low

def startedBy (chunk : Chunk κ) (offset : Nat) : Nat :=
  bisect chunk.starts offset 0 chunk.starts.size

/--
The line of the instruction that holds the byte at `offset`. A byte in front of all instructions
has the last line of the chunk, and a chunk without instructions has line zero.
-/
def lineAt (chunk : Chunk κ) (offset : Nat) : Nat :=
  let started := chunk.startedBy offset
  let line? := if started = 0 then none else chunk.lines[started - 1]?
  (line?.or chunk.lines.back?).getD 0

end StackScript.Chunk
