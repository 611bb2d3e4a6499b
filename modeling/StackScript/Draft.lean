import Std.Data.TreeMap
import StackScript.Datum

/-!
# Functions under construction

A draft is the function that is being compiled, with what is needed to resolve names in it. A local
lives in a stack slot, which is the number of locals opened before it; slot zero holds the running
function itself, under its name, so that a function can call itself.
-/

namespace StackScript

/-- A local variable; without a depth, its initializer is still being compiled. -/
structure Local where
  name : String
  depth : Option Nat

namespace Local

/-- Whether a local was opened at `depth` or deeper, or is not initialized yet. -/
def isWithin (depth : Nat) (entry : Local) : Bool :=
  entry.depth.all (depth ≤ ·)

/-- Whether an initialized local was opened at `depth` or deeper. -/
def isOpenFrom (depth : Nat) (entry : Local) : Bool :=
  entry.depth.any (depth ≤ ·)

/-- The innermost local of a name and its slot, in a list of locals with the innermost first. -/
def resolve? (name : String) : List Local → Option (Nat × Local)
  | [] => none
  | entry :: outer => if entry.name = name then some (outer.length, entry) else resolve? name outer

end Local

/-- What opens a scope. -/
inductive ScopeKind where
  | block
  | loop
  | function
deriving DecidableEq, Repr

/-- A scope: where its code starts and how deep it is. -/
structure Scope where
  kind : ScopeKind
  start : Nat
  depth : Nat
  /-- Where a loop goes on; of no meaning in other scopes. -/
  loopStart : Nat
  /-- The jumps that leave a loop and do not know its end yet, the latest first. -/
  breaks : List Nat

namespace Scope

/-- The innermost loop, in a list of scopes with the innermost first. -/
def innermostLoop? (scopes : List Scope) : Option Scope :=
  scopes.find? (·.kind = .loop)

/-- Adds a jump to those that leave the innermost loop. -/
def addBreak (jump : Nat) : List Scope → List Scope
  | [] => []
  | scope :: outer =>
    if scope.kind = .loop then { scope with breaks := jump :: scope.breaks } :: outer
    else scope :: addBreak jump outer

/-- Sets where the innermost scope goes on. -/
def setLoopStart (start : Nat) : List Scope → List Scope
  | [] => []
  | scope :: outer => { scope with loopStart := start } :: outer

end Scope

inductive DraftKind where
  | script
  | function
deriving DecidableEq, Repr

/-- A function under construction. -/
structure Draft where
  name : String
  arity : Nat
  chunk : Chunk Constant
  kind : DraftKind
  /-- The open locals, innermost first. -/
  locals : List Local
  /-- The open scopes, innermost first. -/
  scopes : List Scope
  /-- The names that have a place in the pool, with that place. -/
  names : Std.TreeMap String UInt8

namespace Draft

/-- The outermost code of a program; no name denotes its slot zero. -/
def script : Draft :=
  ⟨Function.scriptName, 0, .empty, .script, [⟨"", some 0⟩], [], ∅⟩

/-- A function whose parameters are still to come. -/
def named (name : String) : Draft :=
  ⟨name, 0, .empty, .function, [⟨name, some 0⟩], [], ∅⟩

/-- The function as it stands. -/
def function (draft : Draft) : Function :=
  ⟨draft.name, draft.arity, draft.chunk⟩

/-- The number of open scopes. -/
def depth (draft : Draft) : Nat :=
  draft.scopes.length

def openScope (draft : Draft) (kind : ScopeKind) : Draft :=
  { draft with
    scopes := ⟨kind, draft.chunk.size, draft.depth + 1, draft.chunk.size, []⟩ :: draft.scopes }

/-- Opens a local that has no value yet. -/
def addLocal (draft : Draft) (name : String) : Draft :=
  { draft with locals := ⟨name, none⟩ :: draft.locals }

/-- Marks the innermost local as initialized at the present depth. -/
def initializeLocal (draft : Draft) : Draft :=
  { draft with
    locals :=
      match draft.locals with
      | [] => []
      | entry :: outer => { entry with depth := some draft.depth } :: outer }

/-- Whether the innermost scope already has a local of this name. -/
def declares (draft : Draft) (name : String) : Bool :=
  (draft.locals.takeWhile (·.isWithin draft.depth)).any (·.name = name)

/-- How many locals were opened at `depth` or deeper. -/
def countFrom (draft : Draft) (depth : Nat) : Nat :=
  (draft.locals.takeWhile (·.isOpenFrom depth)).length

def dropFrom (draft : Draft) (depth : Nat) : Draft :=
  { draft with locals := draft.locals.dropWhile (·.isOpenFrom depth) }

end Draft

end StackScript
