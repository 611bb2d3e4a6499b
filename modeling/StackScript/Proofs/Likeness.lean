import Mathlib.Data.List.Forall2
import StackScript.Compiler
import StackScript.Listing

/-!
# Code that differs in its lines

Two functions are alike if they and the functions among their constants differ in the source lines
of their instructions only. The same is said of drafts and of compilers.
-/

namespace StackScript

/-- Whether two data are equal but for their functions, which are related. -/
inductive Datum.Like {F G : Type} (related : F → G → Prop) : Datum F → Datum G → Prop where
  | nil : Like related .nil .nil
  | bool (value : Bool) : Like related (.bool value) (.bool value)
  | number (value : Float) : Like related (.number value) (.number value)
  | string (text : String) : Like related (.string text) (.string text)
  | function {left : F} {right : G} (alike : related left right) :
      Like related (.function left) (.function right)

/-- Whether two functions differ in their lines only. -/
inductive Function.Alike : Function → Function → Prop where
  | mk {left right : Function} (name_eq : left.name = right.name)
      (arity_eq : left.arity = right.arity) (code_eq : left.chunk.code = right.chunk.code)
      (starts_eq : left.chunk.starts = right.chunk.starts)
      (held : List.Forall₂ (Datum.Like Function.Alike) left.chunk.constants.toList
        right.chunk.constants.toList) : Alike left right

/-- Whether constants differ in lines only. -/
abbrev Constant.Alike : Constant → Constant → Prop :=
  Datum.Like Function.Alike

theorem Function.Alike.refl (function : Function) : function.Alike function := by
  refine .mk rfl rfl rfl rfl ?_
  rw [List.forall₂_same]
  intro constant present
  match constant, present with
  | .nil, _ => exact .nil
  | .bool value, _ => exact .bool value
  | .number value, _ => exact .number value
  | .string text, _ => exact .string text
  | .function inner, inPool => exact .function (Alike.refl inner)
termination_by sizeOf function
decreasing_by exact Listing.sizeOf_lt_of_mem (Array.mem_toList_iff.mp inPool)

theorem Constant.Alike.refl (constant : Constant) : constant.Alike constant := by
  cases constant with
  | nil => exact .nil
  | bool value => exact .bool value
  | number value => exact .number value
  | string text => exact .string text
  | function function => exact .function (.refl function)

/-- Whether two functions under construction differ in their lines only. -/
structure Draft.Alike (left right : Draft) : Prop where
  name_eq : left.name = right.name
  arity_eq : left.arity = right.arity
  kind_eq : left.kind = right.kind
  locals_eq : left.locals = right.locals
  scopes_eq : left.scopes = right.scopes
  names_eq : left.names = right.names
  code_eq : left.chunk.code = right.chunk.code
  starts_eq : left.chunk.starts = right.chunk.starts
  held : List.Forall₂ Constant.Alike left.chunk.constants.toList right.chunk.constants.toList

namespace Draft.Alike

variable {left right : Draft}

theorem refl (draft : Draft) : draft.Alike draft :=
  ⟨rfl, rfl, rfl, rfl, rfl, rfl, rfl, rfl, List.forall₂_same.mpr fun constant _ => .refl constant⟩

theorem function (alike : left.Alike right) : left.function.Alike right.function :=
  .mk alike.name_eq alike.arity_eq alike.code_eq alike.starts_eq alike.held

theorem size_eq (alike : left.Alike right) : left.chunk.size = right.chunk.size := by
  rw [Chunk.size, Chunk.size, alike.code_eq]

theorem constants_size_eq (alike : left.Alike right) :
    left.chunk.constants.size = right.chunk.constants.size := by
  simpa using alike.held.length_eq

end Draft.Alike

/-- Whether the functions that two compilers are writing differ in their lines only. -/
structure Compiler.Alike (left right : Compiler) : Prop where
  draft : left.draft.Alike right.draft
  enclosing : List.Forall₂ Draft.Alike left.enclosing right.enclosing

theorem Compiler.Alike.refl (compiler : Compiler) : compiler.Alike compiler :=
  ⟨.refl _, List.forall₂_same.mpr fun draft _ => .refl draft⟩

end StackScript
