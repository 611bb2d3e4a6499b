import StackScript.Proofs.Acceptance
import StackScript.Proofs.Compiled
import StackScript.Proofs.Relocation
import StackScript.Proofs.UniqueTree

/-!
# Programs one after the other

Texts with line ends between them are one text, whose tree is that of the first, followed by that of
the second, and so on. No rule is broken by putting them together, so only the number of constants
can keep the text from being compiled.
-/

namespace StackScript

namespace Statement

/-- One program behind another. -/
def join : Statement → Statement → Statement
  | .empty, other => other
  | .sequence first rest, other => .sequence first (rest.join other)
  | statement, other => .sequence statement other

/-- Programs in a row. -/
def joinAll : List Statement → Statement
  | [] => .empty
  | [program] => program
  | program :: next :: others => program.join (joinAll (next :: others))

end Statement

/-! ## Trees -/

namespace Grammar

variable {tokens others : List Token} {program other : Statement} {depth inner : Nat}

theorem Phrase.join (phrase : Phrase .sequence tokens program depth)
    (behind : Phrase .sequence others other inner) :
    Phrase .sequence (tokens ++ others) (program.join other) (max depth inner) := by
  generalize categoryEq : Category.sequence = category at phrase
  induction phrase with
  | nothing =>
    rw [Nat.zero_max]
    exact behind
  | more declares _ _ ih =>
    rw [List.append_assoc, Nat.max_assoc]
    exact .more declares (ih rfl)
  | _ => cases categoryEq

theorem Nested.Program.lineEnd {text more : String}
    (nested : Nested.Program (StackScript.tokens text) program depth)
    (behind : Nested.Program (StackScript.tokens more) other inner) :
    Nested.Program (StackScript.tokens (text ++ "\n" ++ more)) (program.join other)
      (max depth inner) := by
  rcases nested with ⟨front, ending, tokensEq, _, phrase⟩
  rcases behind with ⟨rest, last, moreEq, atEnd, follows⟩
  have closed : ∀ token ∈ front, token.kind ≠ .error .unterminatedString := by
    intro token present
    exact phrase.readable token present _
  have same := tokens_lineEnd tokensEq closed more
  rw [moreEq] at same
  rcases exists_split same with ⟨inside, _, wholeEq, sameInside, sameBehind⟩
  rcases exists_split sameBehind with ⟨behind, _, rfl, sameRest, sameLast⟩
  cases sameLast with
  | cons sameFinal none =>
    cases none
    rcases exists_moved (nodup_tokens tokensEq) sameInside with ⟨place, rfl⟩
    rcases exists_moved (nodup_tokens moreEq) sameRest with ⟨placeBehind, rfl⟩
    refine ⟨_, _, wholeEq.trans (List.append_assoc ..).symm, sameFinal.kind_eq ▸ atEnd, ?_⟩
    exact phrase.moved.join follows.moved

end Grammar

/-! ## Rules -/

namespace Site

theorem after_script (statement : Statement) : script.after statement = script := rfl

theorem past_script (bytes : Nat) : script.past bytes = script := rfl

end Site

theorem Statement.lawful_join (program other : Statement) :
    (program.join other).Lawful .script ↔ program.Lawful .script ∧ other.Lawful .script := by
  induction program with
  | empty => exact (iff_of_eq (true_and _)).symm
  | sequence first rest _ ih =>
    simp only [Statement.join, Statement.Lawful, Site.after_script, Site.past_script, ih, and_assoc]
  | _ => rfl

/-- Whether the tokens of a text are a program that breaks no rule but that of the constants. -/
structure Accepted (text : String) (program : Statement) : Prop where
  nested : ∃ depth ≤ Compile.maxNesting, Grammar.Nested.Program (tokens text) program depth
  lawful : program.Lawful .script

namespace Accepted

variable {text more : String} {program other : Statement} {script : Function}

theorem derives (accepted : Accepted text program) : Grammar.Program (tokens text) program := by
  rcases accepted.nested with ⟨depth, _, nested⟩
  exact ⟨depth, nested⟩

theorem of_compile (compiled : compile text = .ok script) :
    ∃ program stops, Accepted text program ∧ script.Laid .script program stops := by
  rcases Function.laid_of_compile compiled with ⟨program, stops, derives, _, laid⟩
  rcases derives with ⟨depth, nested⟩
  rcases (nested.compiled laid.placed).1.mp ⟨script, compiled⟩ with ⟨shallow, lawful, _⟩
  exact ⟨program, stops, ⟨⟨depth, shallow, nested⟩, lawful⟩, laid⟩

theorem laid (accepted : Accepted text program) (compiled : compile text = .ok script) :
    ∃ stops, script.Laid .script program stops := by
  rcases Function.laid_of_compile compiled with ⟨same, stops, derives, _, laid⟩
  rw [accepted.derives.unique derives]
  exact ⟨stops, laid⟩

theorem error_kind {error : CompileError} (accepted : Accepted text program)
    (refused : compile text = .error error) : error.kind = .tooManyConstants := by
  rcases accepted.nested with ⟨depth, shallow, nested⟩
  exact (nested.compiled accepted.derives.placed).2 error refused shallow accepted.lawful

theorem lineEnd (accepted : Accepted text program) (behind : Accepted more other) :
    Accepted (text ++ "\n" ++ more) (program.join other) := by
  rcases accepted.nested with ⟨depth, shallow, nested⟩
  rcases behind.nested with ⟨inner, shallowToo, follows⟩
  refine ⟨⟨max depth inner, Nat.max_le.mpr ⟨shallow, shallowToo⟩, nested.lineEnd follows⟩, ?_⟩
  rw [Statement.lawful_join]
  exact ⟨accepted.lawful, behind.lawful⟩

theorem intercalate {texts : List String} {programs : List Statement}
    (each : List.Forall₂ Accepted (text :: texts) (program :: programs)) :
    Accepted ("\n".intercalate (text :: texts)) (.joinAll (program :: programs)) := by
  cases each with
  | cons accepted others =>
    induction others generalizing text program with
    | nil => rwa [String.intercalate_singleton]
    | cons next _ ih =>
      rw [String.intercalate_cons_cons]
      exact accepted.lineEnd (ih next)

end Accepted

/-! ## Code -/

namespace Layout

variable {layout : Layout}

theorem after_empty : layout.after .empty = layout := by
  simp [after, binds, Statement.declared, Statement.functionCount]

theorem after_sequence (first rest : Statement) :
    layout.after (.sequence first rest) = (layout.after first).after rest := by
  by_cases outermost : layout.isOutermost <;>
    simp [after, binds, Statement.declared, Statement.functionCount, outermost, Nat.add_assoc]

end Layout

theorem Statement.CodeAt.of_join {program other : Statement} {chunk : Chunk Constant}
    {layout : Layout} {start stop : Nat} {marks : List (Nat × Nat)}
    (code : (program.join other).CodeAt chunk layout start stop marks) :
    ∃ middle marksFirst marksRest, program.CodeAt chunk layout start middle marksFirst ∧
      other.CodeAt chunk (layout.after program) middle stop marksRest := by
  induction program generalizing layout start marks with
  | empty =>
    rw [Layout.after_empty]
    exact ⟨start, [], marks, ⟨rfl, rfl⟩, code⟩
  | sequence first rest _ ih =>
    rcases code with ⟨between, marksFirst, marksBehind, codeFirst, codeBehind, _⟩
    rcases ih codeBehind with ⟨middle, marksInside, marksRest, codeInside, codeRest⟩
    rw [Layout.after_sequence]
    exact ⟨middle, _, marksRest, ⟨between, _, _, codeFirst, codeInside, rfl⟩, codeRest⟩
  | _ =>
    rcases code with ⟨middle, marksFirst, marksRest, codeFirst, codeRest, _⟩
    exact ⟨middle, marksFirst, marksRest, codeFirst, codeRest⟩

end StackScript
