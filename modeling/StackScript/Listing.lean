import StackScript.Chunk.Lines
import StackScript.Datum
import StackScript.Text.Column

/-!
# Listings

Code as text, one instruction a line: its offset, its source line, the name of the operation and the
operand. Any bytes can be listed: what is no instruction is listed as such.
-/

namespace StackScript.Listing

def nameColumn (opcode : Opcode) : String :=
  Text.alignLeft 16 opcode.name ++ " "

def numberColumn (number : Nat) : String :=
  Text.alignRight 4 ' ' (toString number)

/-- The columns in front of what a line says: the offset and the source line. -/
def margin (chunk : Chunk Constant) (offset : Nat) : String :=
  Text.alignRight 4 '0' (toString offset) ++ " " ++ numberColumn (chunk.lineAt offset) ++ " "

/-- The entry of the pool that an operand names. -/
def poolEntry (constants : Array Constant) (index : Nat) : String :=
  match constants[index]? with
  | some constant => constant.display
  | none => "<missing>"

/-- The offset that a jump at `offset` leads to; a jump back may lead out of the code. -/
def target (opcode : Opcode) (offset distance : Nat) : Int :=
  if opcode = .loop then ((offset + 3 : Nat) : Int) - (distance : Int)
  else ((offset + 3 + distance : Nat) : Int)

/-- The columns behind the name of an operation that has an operand. -/
def operands (opcode : Opcode) (columns : Option String) : String :=
  nameColumn opcode ++ columns.getD "<truncated>"

/-- What a line says of the operation at `offset`. -/
def describe (chunk : Chunk Constant) (offset : Nat) (opcode : Opcode) : String :=
  match opcode with
  | .constant | .defineGlobal | .setGlobal | .getGlobal =>
    operands opcode (chunk.code[offset + 1]?.map fun index =>
      s!"{numberColumn index.toNat} '{poolEntry chunk.constants index.toNat}'")
  | .getLocal | .setLocal | .call =>
    operands opcode (chunk.code[offset + 1]?.map fun operand => numberColumn operand.toNat)
  | .jump | .jumpIfFalse | .loop =>
    operands opcode ((Chunk.readWord? chunk.code (offset + 1)).map fun distance =>
      s!"{numberColumn offset} -> {target opcode offset distance}")
  | _ => opcode.name

/-- The line for the bytes at `offset`, and the offset of the line that follows. -/
def instruction (chunk : Chunk Constant) (offset : Nat) : String × Nat :=
  match chunk.code[offset]? with
  | none => (margin chunk offset ++ "<end of chunk>", offset + 1)
  | some byte =>
    match Opcode.ofByte? byte with
    | none => (margin chunk offset ++ s!"Unknown opcode {byte.toNat}", offset + 1)
    | some opcode => (margin chunk offset ++ describe chunk offset opcode, offset + opcode.size)

theorem lt_next (chunk : Chunk Constant) (offset : Nat) :
    offset < (instruction chunk offset).2 := by
  unfold instruction
  split
  · exact Nat.lt_succ_self offset
  · split
    · exact Nat.lt_succ_self offset
    · exact Nat.lt_add_of_pos_right (Opcode.size_pos _)

/-- Adds the lines from `offset` to the end of the code to `text`. -/
def addLines (chunk : Chunk Constant) (text : String) (offset : Nat) : String :=
  if offset < chunk.size then
    addLines chunk (text ++ (instruction chunk offset).1 ++ "\n") (instruction chunk offset).2
  else text
termination_by chunk.size - offset
decreasing_by
  have forward := lt_next chunk offset
  omega

/-- All lines of a chunk under a heading. -/
def chunk (name : String) (chunk : Chunk Constant) : String :=
  addLines chunk s!"== {name} ==\n" 0

/-- A function, listed. -/
def body (function : Function) : String :=
  chunk function.display function.chunk

/-- A function in a pool is smaller than the function that the pool belongs to. -/
theorem sizeOf_lt_of_mem {function inner : Function}
    (held : Datum.function inner ∈ function.chunk.constants) :
    sizeOf inner < sizeOf function := by
  have inPool := Array.sizeOf_lt_of_mem held
  obtain ⟨name, arity, ⟨code, constants, lines, starts⟩⟩ := function
  simp only [Datum.function.sizeOf_spec] at inPool
  simp only [Function.mk.sizeOf_spec, Chunk.mk.sizeOf_spec]
  omega

/-- The code of a function and, behind it, of the functions among its constants. -/
def function (function : Function) : String :=
  function.chunk.constants.attach.foldl
    (fun text held =>
      match held with
      | ⟨.function inner, _⟩ => text ++ "\n" ++ Listing.function inner
      | _ => text)
    (body function)
termination_by sizeOf function
decreasing_by exact sizeOf_lt_of_mem ‹_›

end StackScript.Listing
