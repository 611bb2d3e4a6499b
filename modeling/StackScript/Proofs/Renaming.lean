import StackScript.Proofs.Resemblance
import StackScript.Proofs.Stock

/-!
# Other names for the same things

A renaming gives every name another one, different names different ones. What is spelled like a name
and is none, like the text of a string, stays as it is. Where one compiler looks up a name, the
other looks up its new name and finds the same.
-/

namespace StackScript

/-- Whether a word is a name: it is read as one token, and that is no keyword. -/
def Lexeme.isName (word : String) : Bool :=
  match word.toList with
  | [] => false
  | first :: rest => (cut first rest).kind = .identifier && (cut first rest).rest.isEmpty

/-- Words that are names. -/
abbrev Name := { word : String // Lexeme.isName word = true }

/-- New names for old ones. -/
structure Renaming where
  onNames : Name → Name
  injective : Function.Injective onNames

namespace Renaming

variable (rename : Renaming)

/-- The new name of a word. -/
def apply (word : String) : String :=
  if named : Lexeme.isName word = true then (rename.onNames ⟨word, named⟩).1 else word

theorem apply_of_not_name {word : String} (other : Lexeme.isName word = false) :
    rename.apply word = word := by
  simp [apply, other]

theorem isName_apply (word : String) : Lexeme.isName (rename.apply word) = Lexeme.isName word := by
  unfold apply
  split
  · next named => rw [named, (rename.onNames _).2]
  · rfl

theorem apply_injective : Function.Injective rename.apply := by
  intro word other same
  have alike : Lexeme.isName word = Lexeme.isName other := by
    rw [← rename.isName_apply word, ← rename.isName_apply other, same]
  by_cases named : Lexeme.isName word = true
  · have namedToo : Lexeme.isName other = true := alike ▸ named
    simp only [apply, named, namedToo, dite_true] at same
    exact congrArg Subtype.val (rename.injective (Subtype.ext same))
  · have neither : Lexeme.isName word = false := by simpa using named
    rwa [rename.apply_of_not_name neither, rename.apply_of_not_name (alike ▸ neither)] at same

@[simp] theorem apply_empty : rename.apply "" = "" :=
  rename.apply_of_not_name rfl

@[simp] theorem apply_scriptName : rename.apply Function.scriptName = Function.scriptName :=
  rename.apply_of_not_name (by decide)

/-- The token with its new name. -/
def token (token : Token) : Token :=
  if token.kind = .identifier then { token with lexeme := rename.apply token.lexeme } else token

@[simp] theorem kind_token (token : Token) : (rename.token token).kind = token.kind := by
  unfold Renaming.token
  split <;> rfl

@[simp] theorem line_token (token : Token) : (rename.token token).line = token.line := by
  unfold Renaming.token
  split <;> rfl

theorem lexeme_of_identifier {token : Token} (name : token.kind = .identifier) :
    (rename.token token).lexeme = rename.apply token.lexeme := by
  rw [Renaming.token, if_pos name]

theorem token_of_other {token : Token} (other : token.kind ≠ .identifier) :
    rename.token token = token :=
  if_neg other

end Renaming

/--
Whether a function is another one with new names. The two differ in their own names, in the names of
global variables among their constants and in the functions among their constants.
-/
inductive Function.Renamed (rename : Renaming) : Function → Function → Prop where
  | mk {left right : Function} (name_eq : right.name = rename.apply left.name)
      (arity_eq : right.arity = left.arity) (code_eq : right.chunk.code = left.chunk.code)
      (lines_eq : right.chunk.lines = left.chunk.lines)
      (starts_eq : right.chunk.starts = left.chunk.starts)
      (size_eq : right.chunk.constants.size = left.chunk.constants.size)
      (apart : ∀ place < left.chunk.constants.size,
        place ∈ left.chunk.globalPlaces ↔ place ∉ left.chunk.loadedPlaces)
      (names : ∀ place ∈ left.chunk.globalPlaces,
        ∃ name, left.chunk.constants[place]? = some (.string name) ∧
          right.chunk.constants[place]? = some (.string (rename.apply name)))
      (loaded : ∀ place constant other, place ∈ left.chunk.loadedPlaces →
        left.chunk.constants[place]? = some constant →
        right.chunk.constants[place]? = some other →
        Datum.Like (Function.Renamed rename) constant other) :
      Renamed rename left right

/-- Whether a constant that is loaded is another one with new names in its functions. -/
abbrev Constant.Renamed (rename : Renaming) : Constant → Constant → Prop :=
  Datum.Like (Function.Renamed rename)

/-- Whether a function under construction is another one with new names. -/
structure Draft.Twin (rename : Renaming) (left right : Draft) : Prop where
  name_eq : right.name = rename.apply left.name
  arity_eq : right.arity = left.arity
  kind_eq : right.kind = left.kind
  locals_eq : right.locals = left.locals.map (Local.renamed rename.apply)
  scopes_eq : right.scopes = left.scopes
  names_eq : ∀ name, right.names[rename.apply name]? = left.names[name]?
  code_eq : right.chunk.code = left.chunk.code
  lines_eq : right.chunk.lines = left.chunk.lines
  starts_eq : right.chunk.starts = left.chunk.starts
  size_eq : right.chunk.constants.size = left.chunk.constants.size
  interned : ∀ (name : String) (place : UInt8), left.names[name]? = some place →
    left.chunk.Names place.toNat name ∧ right.chunk.Names place.toNat (rename.apply name)
  others : ∀ place constant other, ¬left.Interns place →
    left.chunk.constants[place]? = some constant → right.chunk.constants[place]? = some other →
    constant.Renamed rename other

namespace Draft.Twin

variable {rename : Renaming} {left right : Draft} {name : String}

theorem begun {kind : DraftKind} (entry : String) (scopes : List Scope) :
    Draft.Twin rename ⟨name, 0, .empty, kind, [⟨entry, some 0⟩], scopes, ∅⟩
      ⟨rename.apply name, 0, .empty, kind, [⟨rename.apply entry, some 0⟩], scopes, ∅⟩ where
  name_eq := rfl
  arity_eq := rfl
  kind_eq := rfl
  locals_eq := rfl
  scopes_eq := rfl
  names_eq _ := by simp
  code_eq := rfl
  lines_eq := rfl
  starts_eq := rfl
  size_eq := rfl
  interned _ _ known := by simp at known
  others _ _ _ _ found := by simp [Chunk.empty] at found

theorem script : Draft.Twin rename Draft.script Draft.script := by
  have twin : Draft.Twin rename
      ⟨Function.scriptName, 0, .empty, .script, [⟨"", some 0⟩], [], ∅⟩ _ := begun "" []
  simpa [Draft.script] using twin

theorem named (name : String) :
    Draft.Twin rename ((Draft.named name).openScope .function)
      ((Draft.named (rename.apply name)).openScope .function) :=
  begun name _

variable (twin : left.Twin rename right)
include twin

theorem chunkSize_eq : right.chunk.size = left.chunk.size := by
  rw [Chunk.size, Chunk.size, twin.code_eq]

/-! ## Code -/

theorem recode {leftChunk rightChunk : Chunk Constant} (codeEq : rightChunk.code = leftChunk.code)
    (linesEq : rightChunk.lines = leftChunk.lines) (startsEq : rightChunk.starts = leftChunk.starts)
    (leftEq : leftChunk.constants = left.chunk.constants)
    (rightEq : rightChunk.constants = right.chunk.constants) :
    Draft.Twin rename { left with chunk := leftChunk } { right with chunk := rightChunk } :=
  { twin with
    code_eq := codeEq
    lines_eq := linesEq
    starts_eq := startsEq
    size_eq := by rw [leftEq, rightEq, twin.size_eq]
    interned := by
      simp only [Chunk.Names, leftEq, rightEq]
      exact twin.interned
    others := by
      simp only [leftEq, rightEq]
      exact twin.others }

theorem writeOpcode (opcode : Opcode) (line : Nat) :
    Draft.Twin rename { left with chunk := left.chunk.writeOpcode opcode line }
      { right with chunk := right.chunk.writeOpcode opcode line } := by
  refine twin.recode ?_ ?_ ?_ rfl rfl
  · simp only [Chunk.writeOpcode, twin.code_eq]
  · simp only [Chunk.writeOpcode, twin.lines_eq]
  · simp only [Chunk.writeOpcode, twin.starts_eq, twin.code_eq]

theorem writeByte (byte : UInt8) :
    Draft.Twin rename { left with chunk := left.chunk.writeByte byte }
      { right with chunk := right.chunk.writeByte byte } := by
  refine twin.recode ?_ twin.lines_eq twin.starts_eq rfl rfl
  simp only [Chunk.writeByte, twin.code_eq]

theorem patchWord (offset word : Nat) :
    Draft.Twin rename { left with chunk := left.chunk.patchWord offset word }
      { right with chunk := right.chunk.patchWord offset word } := by
  refine twin.recode ?_ twin.lines_eq twin.starts_eq rfl rfl
  simp only [Chunk.patchWord, twin.code_eq]

/-! ## Constants -/

theorem pool {constant other : Constant} (renamed : constant.Renamed rename other) :
    Draft.Twin rename (left.pool constant) (right.pool other) :=
  { twin with
    size_eq := by simp [Draft.pool, twin.size_eq]
    interned := by
      intro name place known
      have held := twin.interned name place known
      have inLeft := (Array.getElem?_eq_some_iff.mp held.1).1
      have inRight := (Array.getElem?_eq_some_iff.mp held.2).1
      simp only [Chunk.Names, Draft.pool, Array.getElem?_push]
      rw [if_neg (by omega), if_neg (by omega)]
      exact held
    others := by
      intro place first second free atLeft atRight
      simp only [Draft.pool, Array.getElem?_push, twin.size_eq] at atLeft atRight
      by_cases last : place = left.chunk.constants.size
      · rw [if_pos last] at atLeft atRight
        cases atLeft
        cases atRight
        exact renamed
      · rw [if_neg last] at atLeft atRight
        exact twin.others place first second free atLeft atRight }

theorem intern {place : UInt8} (fresh : left.names[name]? = none)
    (placeEq : place.toNat = left.chunk.constants.size) :
    Draft.Twin rename ((left.pool (.string name)).remember name place)
      ((right.pool (.string (rename.apply name))).remember (rename.apply name) place) :=
  { twin with
    names_eq := by
      intro other
      simp only [Draft.remember, Draft.pool, Std.TreeMap.getElem?_insert, twin.names_eq other,
        Std.LawfulEqCmp.compare_eq_iff_eq, rename.apply_injective.eq_iff]
    size_eq := by simp [Draft.remember, Draft.pool, twin.size_eq]
    interned := by
      intro other index known
      rcases (getElem?_remember (show (left.pool (.string name)).names[name]? = none from fresh)
        other index).mp known with ⟨rfl, rfl⟩ | before
      · have placeEq' : index.toNat = right.chunk.constants.size := placeEq.trans twin.size_eq.symm
        constructor
        · simp [Chunk.Names, Draft.remember, Draft.pool, placeEq]
        · simp [Chunk.Names, Draft.remember, Draft.pool, placeEq']
      · have held := twin.interned other index before
        have inLeft := (Array.getElem?_eq_some_iff.mp held.1).1
        have inRight := (Array.getElem?_eq_some_iff.mp held.2).1
        simp only [Chunk.Names, Draft.remember, Draft.pool, Array.getElem?_push]
        rw [if_neg (by omega), if_neg (by omega)]
        exact held
    others := by
      intro index first second free atLeft atRight
      have free' := (interns_remember
        (show (left.pool (.string name)).names[name]? = none from fresh) index).not.mp free
      rw [not_or, placeEq] at free'
      simp only [Draft.remember, Draft.pool, Array.getElem?_push, twin.size_eq] at atLeft atRight
      rw [if_neg free'.1] at atLeft atRight
      exact twin.others index first second free'.2 atLeft atRight }

/-! ## Finished functions -/

/-- With nothing pending, the places of names are those that the code refers to as such. -/
theorem function {operations : List Operation} (kept : left.Kept operations []) :
    left.function.Renamed rename right.function := by
  refine .mk twin.name_eq twin.arity_eq twin.code_eq twin.lines_eq twin.starts_eq twin.size_eq
    ?_ ?_ ?_
  · intro place inside
    change place ∈ left.chunk.globalPlaces ↔ place ∉ left.chunk.loadedPlaces
    rw [kept.mem_globalPlaces, kept.mem_loadedPlaces, not_and, not_not]
    exact ⟨fun interned _ => interned, fun either => either inside⟩
  · intro place present
    rcases (kept.mem_globalPlaces place).mp present with ⟨name, index, known, rfl⟩
    exact ⟨name, twin.interned name index known⟩
  · intro place constant other present atLeft atRight
    exact twin.others place constant other ((kept.mem_loadedPlaces place).mp present).2 atLeft
      atRight

end Draft.Twin

end StackScript
