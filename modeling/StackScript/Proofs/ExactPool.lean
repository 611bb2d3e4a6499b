import StackScript.Proofs.Bookkeeping
import StackScript.Proofs.Resolution

/-!
# Pools without waste

In a compiled function every entry of the pool is the constant of one instruction that loads it, or
the name of a global variable. Accesses share an entry exactly if they were written for the same
name of the program.
-/

namespace StackScript

variable {script : Function}

open Compile

theorem Function.booked_of_compiled {text : String} (compiled : compile text = .ok script) :
    script.Booked := by
  rcases exists_wholeText compiled with ⟨done, returned, ran, ranReturn, rfl⟩
  rcases (wholeText_built .nothing).keeps _ [] [] Draft.kept_script (by simp [Known.nothing]) _ _
    ran with ⟨written, keptDone, _⟩
  have returns : KeepsAll [] emitReturn := .emitReturn
  rcases returns done written [] keptDone (by simp) () returned ranReturn with ⟨_, kept, _⟩
  exact kept.booked_function

theorem Function.Every.within {holds : Function → Prop} {function : Function}
    (every : script.Every holds) (inside : script.Within function) : holds function := by
  have below : function.Every holds := by
    induction inside with
    | self => exact every
    | pooled _ held ih =>
      cases ih with
      | mk _ inner => exact inner _ _ held
  cases below with
  | mk here _ => exact here

/-- The functions of a tree: the whole program and those that are declared in it, at any depth. -/
inductive Declaration.Within (program : Declaration) : Declaration → Prop where
  | self : program.Within program
  | declared {outer inner : Declaration} (inside : program.Within outer)
      (declares : inner ∈ outer.body.functions) : program.Within inner

namespace Chunk

variable {chunk : Chunk Constant} {names : List String}

/--
Whether the instructions make exact use of the pool, where those for global variables are written
for these names, in this order.
-/
structure ExactFor (chunk : Chunk Constant) (names : List String) : Prop where
  /-- No two instructions load the same place. -/
  loads_nodup : chunk.loadedPlaces.Nodup
  /-- A place is loaded or has the name of a global variable, not both and not neither. -/
  mem_loads : ∀ place, place ∈ chunk.loadedPlaces ↔
    place < chunk.constants.size ∧ place ∉ chunk.globalPlaces
  /-- Each instruction for a global variable refers to the name that it is written for. -/
  named : List.Forall₂ chunk.Names chunk.globalPlaces names
  /-- Two of them refer to the same place exactly if they are written for the same name. -/
  same_iff : ∀ {first second place other : Nat} {name name' : String},
    chunk.globalPlaces[first]? = some place → names[first]? = some name →
    chunk.globalPlaces[second]? = some other → names[second]? = some name' →
    (place = other ↔ name = name')
  /-- There are as many places as constants that are loaded and different names. -/
  size_eq : chunk.constants.size = chunk.loadedPlaces.length + names.dedup.length

theorem Names.of_getElem? (named : List.Forall₂ chunk.Names chunk.globalPlaces names)
    {index place : Nat} {name : String} (there : chunk.globalPlaces[index]? = some place)
    (called : names[index]? = some name) : chunk.Names place name := by
  rcases List.getElem?_eq_some_iff.mp there with ⟨_, rfl⟩
  rcases List.getElem?_eq_some_iff.mp called with ⟨_, rfl⟩
  exact named.get _ _

/-- Lists that are related one to one have as many different members. -/
theorem length_dedup_of_forall₂ {α β : Type} [DecidableEq α] [DecidableEq β]
    {related : α → β → Prop} (unique : Relator.BiUnique related) {left : List α} {right : List β}
    (all : List.Forall₂ related left right) : left.dedup.length = right.dedup.length := by
  induction all with
  | nil => rfl
  | @cons first second left right here rest ih =>
    have mem_iff : first ∈ left ↔ second ∈ right := List.rel_mem unique here rest
    by_cases again : first ∈ left
    · rw [List.dedup_cons_of_mem again, List.dedup_cons_of_mem (mem_iff.mp again), ih]
    · rw [List.dedup_cons_of_notMem again, List.dedup_cons_of_notMem (mt mem_iff.mpr again),
        List.length_cons, List.length_cons, ih]

namespace Exact

theorem lt_of_mem_globalPlaces (exact : chunk.Exact) {place : Nat}
    (present : place ∈ chunk.globalPlaces) : place < chunk.constants.size := by
  rcases exact.named place present with ⟨name, isName⟩
  exact (Array.getElem?_eq_some_iff.mp isName).1

theorem exists_load (exact : chunk.Exact) {place : Nat} {function : Function}
    (held : chunk.constants[place]? = some (.function function)) :
    ∃ index : Nat, chunk.instructions[index]? = some (.constant place) := by
  have noName : place ∉ chunk.globalPlaces := by
    intro accessed
    rcases exact.named place accessed with ⟨name, isName⟩
    rw [Names, held] at isName
    cases isName
  have loaded := (exact.mem_loads place).mpr ⟨(Array.getElem?_eq_some_iff.mp held).1, noName⟩
  rcases List.mem_filterMap.mp loaded with ⟨instruction, present, loads⟩
  cases instruction with
  | constant other =>
    cases loads
    exact List.getElem?_of_mem present
  | _ => cases loads

theorem same_iff (exact : chunk.Exact) {place other : Nat} {name name' : String}
    (present : place ∈ chunk.globalPlaces) (presentToo : other ∈ chunk.globalPlaces)
    (isName : chunk.Names place name) (isNameToo : chunk.Names other name') :
    place = other ↔ name = name' := by
  constructor
  · rintro rfl
    rw [Names, isName] at isNameToo
    cases isNameToo
    rfl
  · rintro rfl
    exact exact.same place present other presentToo name isName isNameToo

/-- There are as many places for names as there are names. -/
theorem length_dedup (exact : chunk.Exact)
    (named : List.Forall₂ chunk.Names chunk.globalPlaces names) :
    chunk.globalPlaces.dedup.length = names.dedup.length := by
  have unique : Relator.BiUnique fun place name =>
      place ∈ chunk.globalPlaces ∧ chunk.Names place name :=
    ⟨fun _ _ _ here there => (exact.same_iff here.1 there.1 here.2 there.2).mpr rfl,
      fun _ _ _ here there => (exact.same_iff here.1 there.1 here.2 there.2).mp rfl⟩
  exact length_dedup_of_forall₂ unique ((List.forall₂_and_left _ _).mpr ⟨fun _ => id, named⟩)

theorem size_eq (exact : chunk.Exact) :
    chunk.constants.size = chunk.loadedPlaces.length + chunk.globalPlaces.dedup.length := by
  have loads : chunk.loadedPlaces.Perm ((List.range chunk.constants.size).filter
      fun place => !decide (place ∈ chunk.globalPlaces)) := by
    apply (List.perm_ext_iff_of_nodup exact.loads_nodup (List.nodup_range.filter _)).mpr
    intro place
    simp [exact.mem_loads]
  have globals : chunk.globalPlaces.dedup.Perm
      ((List.range chunk.constants.size).filter (· ∈ chunk.globalPlaces)) := by
    apply (List.perm_ext_iff_of_nodup (List.nodup_dedup _) (List.nodup_range.filter _)).mpr
    intro place
    simpa using exact.lt_of_mem_globalPlaces
  have both := (List.filter_append_perm (· ∈ chunk.globalPlaces)
    (List.range chunk.constants.size)).length_eq
  rw [List.length_append, List.length_range, ← globals.length_eq, ← loads.length_eq] at both
  omega

theorem exactFor (exact : chunk.Exact)
    (named : List.Forall₂ chunk.Names chunk.globalPlaces names) : chunk.ExactFor names where
  loads_nodup := exact.loads_nodup
  mem_loads := exact.mem_loads
  named := named
  same_iff there called thereToo calledToo :=
    exact.same_iff (List.mem_of_getElem? there) (List.mem_of_getElem? thereToo)
      (.of_getElem? named there called) (.of_getElem? named thereToo calledToo)
  size_eq := by rw [← exact.length_dedup named, exact.size_eq]

end Exact

end Chunk

/-- Every function in the pool of another comes from a declaration inside of that of the other. -/
theorem Function.Resolves.exists_declared {declaration : Declaration} {holder function : Function}
    {place : Nat} (resolves : Function.Resolves declaration holder) (exact : holder.chunk.Exact)
    (held : holder.chunk.constants[place]? = some (.function function)) :
    ∃ inner ∈ declaration.body.functions, Function.Resolves inner function := by
  rcases exact.exists_load held with ⟨_, loads⟩
  have loaded : function ∈ holder.chunk.loaded :=
    List.mem_filterMap.mpr ⟨_, List.mem_of_getElem? loads, by rw [Chunk.loadOf?, held]; rfl⟩
  rcases List.mem_iff_get.mp loaded with ⟨index, rfl⟩
  cases resolves with
  | mk _ _ _ _ _ inside =>
    have below : index.1 < declaration.body.functions.length := by
      rw [inside.length_eq]
      exact index.2
    exact ⟨_, List.get_mem _ ⟨index.1, below⟩, inside.get below index.2⟩

theorem Function.Resolves.exists_within {declaration : Declaration} {script function : Function}
    (resolves : Function.Resolves declaration script)
    (booked : script.Booked) (inside : script.Within function) :
    ∃ inner, declaration.Within inner ∧ Function.Resolves inner function := by
  induction inside with
  | self => exact ⟨declaration, .self, resolves⟩
  | pooled inside held ih =>
    rcases ih with ⟨outer, within, resolvesOuter⟩
    rcases resolvesOuter.exists_declared (booked.within inside).1 held with
      ⟨inner, declares, resolvesInner⟩
    exact ⟨inner, within.declared declares, resolvesInner⟩

/--
In every function that a program compiles to, no two instructions load the same entry of the pool,
instructions for global variables share an entry exactly if they were written for the same name of
the tree, no entry is used in both ways, and none is left over.
-/
theorem compile_pools {text : String} {script function : Function}
    (compiled : compile text = .ok script) (inside : script.Within function) :
    ∃ program declaration, Grammar.Program (tokens text) program ∧
      (∀ other, Grammar.Program (tokens text) other → other = program) ∧
      (Declaration.program program).Within declaration ∧
      Function.Resolves declaration function ∧
      function.chunk.ExactFor declaration.globals := by
  have booked := Function.booked_of_compiled compiled
  rcases Function.resolves_of_compile compiled with ⟨program, derives, resolves⟩
  rcases resolves.exists_within booked inside with ⟨declaration, within, resolvesHere⟩
  refine ⟨program, declaration, derives, fun other derivesToo => ?_, within, resolvesHere, ?_⟩
  · exact (derives.unique derivesToo).symm
  · exact (booked.within inside).1.exactFor resolvesHere.names

theorem compile_pools_nestedText :
    ∃ script inner program declaration, compile nestedText = .ok script ∧ script.Within inner ∧
      Grammar.Program (tokens nestedText) program ∧
      (Declaration.program program).Within declaration ∧
      Function.Resolves declaration inner ∧ inner.chunk.ExactFor declaration.globals := by
  rcases compile_nestedText with ⟨script, _, inner, compiled, _, _, inside, _⟩
  rcases compile_pools compiled inside with ⟨program, declaration, derives, _, within, pools⟩
  exact ⟨script, inner, program, declaration, compiled, inside, derives, within, pools⟩

end StackScript
