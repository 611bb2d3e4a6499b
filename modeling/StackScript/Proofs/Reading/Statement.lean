import StackScript.Proofs.Reading.Expression

/-!
# What the compiler reads as statements

Statements, declarations and functions, given that the actions one level below read what they
should. A conditional without a further branch is open: the token behind it does not start one,
or the compiler would have read it.
-/

namespace StackScript

open Compile (Effect)

namespace Grammar

variable {statement : Statement} {tokens : List Token} {depth : Nat}

theorem Phrase.statement_ne_nil (phrase : Phrase .statement tokens statement depth) :
    tokens ≠ [] := by
  cases phrase <;> simp

theorem Phrase.declaration_ne_nil (phrase : Phrase .declaration tokens statement depth) :
    tokens ≠ [] := by
  cases phrase with
  | statement plain => exact plain.statement_ne_nil
  | varDeclaration => simp
  | funDeclaration => simp

theorem Phrase.conditional_ne_empty (phrase : Phrase .conditional tokens statement depth) :
    statement ≠ .empty := by
  cases phrase <;> simp

theorem Phrase.statement_ne_empty (phrase : Phrase .statement tokens statement depth) :
    statement ≠ .empty := by
  cases phrase with
  | branch _ follows => exact follows.conditional_ne_empty
  | _ => simp

end Grammar

theorem Statement.isOpen_conditional {condition : Expression} {met unmet : Statement}
    (present : unmet ≠ .empty) :
    (Statement.conditional condition met unmet).isOpen = unmet.isOpen := by
  cases unmet with
  | empty => exact absurd rfl present
  | _ => simp [Statement.isOpen]

namespace Compile

variable {inner : Parser} {compiler compiler' : Compiler} {opening : Expectation} {start : Unit}

/-! ## Expressions and variables -/

theorem expressionStatement_read (sound : inner.Sound) (ends : compiler.Ends)
    (ran : expressionStatement inner compiler = .ok () compiler') :
    ∃ (tokens : List Token) (semicolon : Token) (value : Expression),
      compiler.Reads (tokens ++ [semicolon]) compiler' ∧
      (∃ depth, Grammar.Whole tokens value depth) ∧ semicolon.kind = .semicolon ∧
      ∃ stops, (Statement.expression value).Writes compiler.draft compiler'.draft stops := by
  simp only [expressionStatement, bind_eq_ok] at ran
  rcases ran with ⟨_, valued, ranValue, _, ended, ranEnd, ranPop⟩
  rcases closed_read sound ends ranValue ranEnd (by decide) with
    ⟨tokens, value, reads, derives, kind, writes⟩
  exact ⟨tokens, valued.current, value, reads.quietly (.emit _) ranPop, derives, kind, _, _, writes,
    effect_of_ok ranPop, rfl⟩

theorem printStatement_read (sound : inner.Sound) (ends : compiler.Ends)
    (word : compiler.previous.kind = .keyword .printKw)
    (ran : printStatement inner compiler = .ok () compiler') :
    compiler.ReadPhraseRest .statement compiler' := by
  simp only [printStatement, bind_eq_ok] at ran
  rcases ran with ⟨_, valued, ranValue, _, ended, ranEnd, ranPrint⟩
  rcases closed_read sound ends ranValue ranEnd (by decide) with
    ⟨tokens, value, reads, ⟨_, derives⟩, kind, writes⟩
  exact ⟨_, .print value, reads.quietly (.emit _) ranPrint, ⟨_, .print word derives kind⟩,
    ⟨_, _, writes, effect_of_ok ranPrint, rfl⟩, by simp [Statement.isOpen]⟩

theorem declare_read {expectation : Expectation} {binding : Binding} (ends : compiler.Ends)
    (ran : declare expectation compiler = .ok binding compiler') :
    compiler.current.kind = .identifier ∧ compiler.Reads [compiler.current] compiler' ∧
      Draft.Declares compiler.current.lexeme compiler.draft binding compiler'.draft ∧
      compiler'.previous = compiler.current := by
  simp only [declare, bind_eq_ok, get_eq_ok] at ran
  rcases ran with ⟨_, named, ranName, _, _, ⟨rfl, rfl⟩, ran⟩
  rcases expect_advances ranName ends (by decide) with ⟨kind, advanced⟩
  rw [advanced.draft_eq] at ran
  refine ⟨kind, ?_⟩
  split at ran
  · next inside =>
    simp only [bind_eq_ok, pure_eq_ok] at ran
    rcases ran with ⟨_, _, ranDeclare, rfl, rfl⟩
    have place := Quiet.declareLocal.samePlace ranDeclare
    refine ⟨by simpa using advanced.reads.trans place.reads, Or.inl ⟨inside, rfl, ?_⟩,
      by rw [place.previous_eq, advanced.previous_eq]⟩
    simp only [declareLocal, bind_eq_ok, get_eq_ok, lastLexeme_eq_ok] at ranDeclare
    rcases ranDeclare with ⟨_, _, ⟨rfl, rfl⟩, _, _, ⟨rfl, rfl⟩, ranDeclare⟩
    rw [advanced.previous_eq, advanced.draft_eq] at ranDeclare
    split at ranDeclare
    · exact absurd ranDeclare fail_ne_ok
    · next free =>
      split at ranDeclare
      · exact absurd ranDeclare fail_ne_ok
      · next room =>
        rw [← modify_eq_ok.mp ranDeclare]
        refine ⟨by simpa using free, by omega, ?_⟩
        simp only [Compiler.onDraft, advanced.draft_eq]
  · next outside =>
    simp only [bind_eq_ok, lastLexeme_eq_ok, pure_eq_ok] at ran
    rcases ran with ⟨_, _, ⟨rfl, rfl⟩, index, _, ranName, rfl, rfl⟩
    have place := (Quiet.nameConstant _).samePlace ranName
    refine ⟨by simpa using advanced.reads.trans place.reads, Or.inr ⟨by omega, index, rfl, ?_⟩,
      by rw [place.previous_eq, advanced.previous_eq]⟩
    have names := effect_of_ok ranName
    rw [advanced.previous_eq, advanced.draft_eq] at names
    exact names

theorem variableDeclaration_read (sound : inner.Sound) (ends : compiler.Ends)
    (ran : variableDeclaration inner compiler = .ok () compiler') :
    ∃ tokens name initial, compiler.Reads tokens compiler' ∧
      (∃ depth, Grammar.Variable tokens name initial depth) ∧
      ∃ stops,
        (Statement.varDeclaration name initial).Writes compiler.draft compiler'.draft stops := by
  simp only [variableDeclaration, bind_eq_ok] at ran
  rcases ran with ⟨binding, declared, ranDeclare, accepted, signed, ranSign, ran⟩
  rcases declare_read ends ranDeclare with ⟨named, readsName, declares, _⟩
  have declaredEnds := readsName.ends ends
  rcases accept_advances ranSign declaredEnds (by decide) with ⟨rfl, sign, signAdvanced⟩ |
    ⟨rfl, _, rfl⟩
  · simp only [if_true, bind_eq_ok] at ran
    rcases ran with ⟨_, valued, ranValue, _, ended, ranEnd, ranDefine⟩
    rcases closed_read sound (signAdvanced.reads.ends declaredEnds) ranValue ranEnd (by decide)
      with ⟨tokens, value, reads, ⟨_, derives⟩, kind, writes⟩
    rw [signAdvanced.draft_eq] at writes
    exact ⟨_, _, some value,
      ((readsName.trans signAdvanced.reads).trans reads).quietly (.define _) ranDefine,
      ⟨_, .initialized named sign derives kind⟩, _, binding, _, _, declares, writes,
      effect_of_ok ranDefine, rfl⟩
  · simp only [Bool.false_eq_true, if_false, bind_eq_ok] at ran
    rcases ran with ⟨_, valued, ranNil, _, ended, ranEnd, ranDefine⟩
    have readsNil := readsName.quietly (.emit _) ranNil
    rcases expect_advances ranEnd (readsNil.ends ends) (by decide) with ⟨kind, advanced⟩
    have defines := effect_of_ok ranDefine
    rw [advanced.draft_eq] at defines
    exact ⟨_, _, none, (readsNil.trans advanced.reads).quietly (.define _) ranDefine,
      ⟨_, .plain named kind⟩, _, binding, _, _, declares, effect_of_ok ranNil, defines, rfl⟩

/-! ## Declarations and blocks -/

theorem functionDeclaration_read (sound : inner.Sound) (ends : compiler.Ends)
    (word : compiler.previous.kind = .keyword .funKw)
    (ran : functionDeclaration inner compiler = .ok () compiler') :
    compiler.ReadPhraseRest .declaration compiler' := by
  simp only [functionDeclaration, bind_eq_ok] at ran
  rcases ran with ⟨binding, declared, ranDeclare, _, visible, ranVisible, _, held, ranBody,
    ranDefine⟩
  rcases declare_read ends ranDeclare with ⟨named, readsName, declares, lastRead⟩
  have place := (Quiet.makeVisible _).samePlace ranVisible
  have readsVisible := readsName.quietly (.makeVisible _) ranVisible
  rcases sound.functionBody (readsVisible.ends ends) ranBody with
    ⟨tokens, parameters, body, function, stops, reads, derives, writes, holds⟩
  rw [place.previous_eq, lastRead] at writes
  rcases derives with ⟨opening, closing, brace, ending, names, inside, rfl, opens, takes, closes,
    begins, ⟨_, does⟩, closesBody⟩
  rcases writes with ⟨begun, done, finished, takesIn, doesIn, returns, rfl⟩
  exact ⟨_, _, (readsVisible.trans reads).quietly (.define _) ranDefine,
    ⟨_, .funDeclaration word named opens takes closes begins does closesBody⟩,
    ⟨_, binding, _, _, begun, done, finished, _, stops, declares, effect_of_ok ranVisible, takesIn,
      doesIn, returns, holds, effect_of_ok ranDefine, rfl⟩, by simp [Statement.isOpen]⟩

theorem phrase_read {category : Grammar.Category} {action : Compile Unit} {kind : Token.Kind}
    (ends : compiler.Ends) (word : compiler.current.kind = kind) (more : kind ≠ .endOfText)
    (ran : (do advance; action) compiler = .ok () compiler')
    (rest : ∀ introduced : Compiler, introduced.Ends → introduced.previous.kind = kind →
      action introduced = .ok () compiler' → introduced.ReadPhraseRest category compiler') :
    compiler.ReadPhrase category compiler' := by
  rcases bind_eq_ok.mp ran with ⟨_, introduced, ranWord, ranRest⟩
  have advanced := advance_advances ranWord ends (word ▸ more)
  exact .of_rest advanced
    (rest introduced (advanced.reads.ends ends) (advanced.previous_eq ▸ word) ranRest)

theorem declaration_read (sound : inner.Sound) (ends : compiler.Ends)
    (ran : declaration inner compiler = .ok () compiler') :
    compiler.ReadPhrase .declaration compiler' := by
  simp only [declaration, bind_eq_ok, lookahead_eq_ok] at ran
  rcases ran with ⟨_, _, ⟨rfl, rfl⟩, ran⟩
  rcases exists_chosen ran with ⟨chosen, choice, ran⟩
  split at choice <;> subst choice
  · next word =>
    exact phrase_read ends word (by simp) ran fun _ => functionDeclaration_read sound
  · next word =>
    refine phrase_read ends word (by simp) ran fun _ ends word ran => ?_
    rcases variableDeclaration_read sound ends ran with
      ⟨tokens, name, initial, reads, ⟨_, derives⟩, writes⟩
    exact ⟨tokens, _, reads, ⟨_, .varDeclaration word derives⟩, writes,
      by simp [Statement.isOpen]⟩
  · rcases sound.statement ends ran with ⟨tokens, statement, reads, ⟨_, derives⟩, writes, open_⟩
    exact ⟨tokens, statement, reads, ⟨_, .statement derives⟩, writes, open_⟩

theorem blockContinues_eq_ok {more : Bool}
    (ran : blockContinues compiler = .ok more compiler') : compiler = compiler' := by
  simp only [blockContinues, bind_eq_ok, lookahead_eq_ok, pure_eq_ok] at ran
  rcases ran with ⟨_, _, ⟨rfl, rfl⟩, _, rfl⟩
  rfl

theorem declarations_read (sound : inner.Sound) (bound : List Token) (ends : compiler.Ends)
    (enough : compiler.upcoming.length ≤ bound.length)
    (ran : repeatWithin blockContinues (declaration inner) bound compiler = .ok () compiler') :
    ∃ tokens body, compiler.Reads tokens compiler' ∧
      (∃ depth, Grammar.Phrase .sequence tokens body depth) ∧
      ∃ stops, body.Writes compiler.draft compiler'.draft stops := by
  induction bound generalizing compiler with
  | nil =>
    simp only [repeatWithin, bind_eq_ok, pure_eq_ok] at ran
    rcases ran with ⟨_, _, ranMore, _, rfl⟩
    rcases blockContinues_eq_ok ranMore with rfl
    exact ⟨[], .empty, .refl _, ⟨_, .nothing⟩, [], rfl, rfl⟩
  | cons token bound ih =>
    simp only [repeatWithin, bind_eq_ok] at ran
    rcases ran with ⟨more, _, ranMore, ran⟩
    rcases blockContinues_eq_ok ranMore with rfl
    split at ran
    · rcases bind_eq_ok.mp ran with ⟨_, declared, ranFirst, ranRest⟩
      rcases declaration_read sound ends ranFirst with
        ⟨first, statement, reads, ⟨_, derives⟩, ⟨stops, writes⟩, _⟩
      have shorter := reads.upcoming_lt derives.declaration_ne_nil
      simp only [List.length_cons] at enough
      rcases ih (reads.ends ends) (by omega) ranRest with
        ⟨rest, others, readsRest, ⟨_, derivesRest⟩, stopsRest, writesRest⟩
      exact ⟨first ++ rest, .sequence statement others, reads.trans readsRest,
        ⟨_, .more derives derivesRest⟩, _, _, stops, stopsRest, writes, writesRest, rfl⟩
    · rcases pure_eq_ok.mp ran with ⟨_, rfl⟩
      exact ⟨[], .empty, .refl _, ⟨_, .nothing⟩, [], rfl, rfl⟩

theorem block_read (sound : inner.Sound) (ends : compiler.Ends)
    (ran : block inner compiler = .ok () compiler') :
    ∃ (tokens : List Token) (closing : Token) (body : Statement),
      compiler.Reads (tokens ++ [closing]) compiler' ∧
      (∃ depth, Grammar.Phrase .sequence tokens body depth) ∧ closing.kind = .rightBrace ∧
      ∃ stops, body.Writes compiler.draft compiler'.draft stops := by
  simp only [block, repeatWhile, bind_eq_ok, get_eq_ok] at ran
  rcases ran with ⟨_, inside, ⟨_, _, ⟨rfl, rfl⟩, ranRounds⟩, ranClose⟩
  rcases declarations_read sound _ ends (Nat.le_refl _) ranRounds with
    ⟨tokens, body, reads, derives, stops, writes⟩
  rcases expect_advances ranClose (reads.ends ends) (by decide) with ⟨closes, closed⟩
  rw [← closed.draft_eq] at writes
  exact ⟨tokens, inside.current, body, reads.trans closed.reads, derives, closes, stops, writes⟩

theorem blockStatement_read (sound : inner.Sound) (ends : compiler.Ends)
    (opens : compiler.previous.kind = .leftBrace)
    (ran : blockStatement inner compiler = .ok () compiler') :
    compiler.ReadPhraseRest .statement compiler' := by
  simp only [blockStatement, bind_eq_ok] at ran
  rcases ran with ⟨_, opening, ranOpen, _, done, ranBlock, ranClose⟩
  have readsOpen := (Compiler.Reads.refl _).quietly (.openScope _) ranOpen
  rcases block_read sound (readsOpen.ends ends) ranBlock with
    ⟨tokens, closing, body, reads, ⟨_, derives⟩, closes, stops, writes⟩
  exact ⟨_, .block body, (readsOpen.trans reads).quietly .closeScope ranClose,
    ⟨_, .block opens derives closes⟩,
    ⟨_, _, _, stops, effect_of_ok ranOpen, writes, effect_of_ok ranClose, rfl⟩,
    by simp [Statement.isOpen]⟩

/-! ## Conditionals and loops -/

theorem condition_read {opened tested : Compiler} (sound : inner.Sound) (ends : compiler.Ends)
    (ranOpen : expect .leftParen opening compiler = .ok () opened)
    (ranTest : inner.expression opened = .ok () tested)
    (ranClose : expect .rightParen .parenAfterCondition tested = .ok () compiler') :
    compiler.current.kind = .leftParen ∧ tested.current.kind = .rightParen ∧
      ∃ tokens condition,
        compiler.Reads (compiler.current :: tokens ++ [tested.current]) compiler' ∧
        (∃ depth, Grammar.Whole tokens condition depth) ∧
        condition.Writes compiler.draft compiler'.draft := by
  rcases expect_advances ranOpen ends (by decide) with ⟨opens, advanced⟩
  rcases closed_read sound (advanced.reads.ends ends) ranTest ranClose (by decide) with
    ⟨tokens, condition, reads, derives, closes, writes⟩
  rw [advanced.draft_eq] at writes
  exact ⟨opens, closes, tokens, condition, advanced.reads.trans reads, derives, writes⟩

/-- Whether the tokens are a further branch of a conditional, with the word that introduces it. -/
def FurtherBranch (tokens : List Token) (unmet : Statement) : Prop :=
  ∃ (word : Token) (others : List Token), tokens = word :: others ∧
    ((word.kind = .keyword .elifKw ∧ ∃ depth, Grammar.Phrase .conditional others unmet depth) ∨
      (word.kind = .keyword .elseKw ∧ ∃ depth, Grammar.Phrase .statement others unmet depth))

section

variable (sound : inner.Sound) (ends : compiler.Ends)
include sound ends

theorem otherBranches_read (ran : otherBranches inner compiler = .ok () compiler') :
    (compiler' = compiler ∧ compiler.EndsBranches) ∨
    ((compiler.current.kind = .keyword .elifKw ∨ compiler.current.kind = .keyword .elseKw) ∧
      ∃ tokens unmet, compiler.Reads tokens compiler' ∧ FurtherBranch tokens unmet ∧
        (∃ stops, unmet.Writes compiler.draft compiler'.draft stops) ∧
        (unmet.isOpen = true → compiler'.EndsBranches)) := by
  simp only [otherBranches, bind_eq_ok, lookahead_eq_ok] at ran
  rcases ran with ⟨_, _, ⟨rfl, rfl⟩, ran⟩
  rcases exists_chosen ran with ⟨chosen, choice, ran⟩
  split at choice <;> subst choice
  · next word =>
    rcases bind_eq_ok.mp ran with ⟨_, introduced, ranWord, ranRest⟩
    have advanced := advance_advances ranWord ends (by simp [word])
    rcases sound.alternative (advanced.reads.ends ends) ranRest with
      ⟨tokens, unmet, reads, derives, writes, last⟩
    rw [advanced.draft_eq] at writes
    exact Or.inr ⟨Or.inl word, compiler.current :: tokens, unmet, advanced.reads.trans reads,
      ⟨_, _, rfl, Or.inl ⟨word, derives⟩⟩, writes, last⟩
  · next word =>
    rcases bind_eq_ok.mp ran with ⟨_, introduced, ranWord, ranRest⟩
    have advanced := advance_advances ranWord ends (by simp [word])
    rcases sound.statement (advanced.reads.ends ends) ranRest with
      ⟨tokens, unmet, reads, derives, writes, last⟩
    rw [advanced.draft_eq] at writes
    exact Or.inr ⟨Or.inr word, compiler.current :: tokens, unmet, advanced.reads.trans reads,
      ⟨_, _, rfl, Or.inr ⟨word, derives⟩⟩, writes, last⟩
  · next noFurther noOther =>
    rcases pure_eq_ok.mp ran with ⟨_, rfl⟩
    exact Or.inl ⟨rfl, noFurther, noOther⟩

theorem conditional_read (ran : conditional inner opening compiler = .ok () compiler') :
    compiler.ReadPhrase .conditional compiler' := by
  simp only [conditional, bind_eq_ok] at ran
  rcases ran with ⟨_, opened, ranOpen, _, tested, ranTest, _, closed, ranClose, unmetJump, jumped,
    ranJump, _, popped, ranPop, _, chosen, ranMet, doneJump, skipped, ranSkip, _, patched,
    ranPatch, _, dropped, ranDrop, _, other, ranOther, ranDone⟩
  rcases condition_read sound ends ranOpen ranTest ranClose with
    ⟨opens, closes, test, condition, readsTest, ⟨_, derivesTest⟩, writesTest⟩
  have toBranch := (readsTest.quietly (.emitJump _) ranJump).quietly (.emit _) ranPop
  rcases sound.statement (toBranch.ends ends) ranMet with
    ⟨inside, met, readsMet, ⟨_, derivesMet⟩, ⟨stopsMet, writesMet⟩, metOpen⟩
  have toOthers := (((Quiet.emitJump _).samePlace ranSkip).trans
    ((Quiet.patchJump _).samePlace ranPatch)).trans ((Quiet.emit _).samePlace ranDrop)
  have soFar := (toBranch.trans readsMet).trans toOthers.reads
  rw [List.append_nil] at soFar
  have place := (Quiet.patchJump _).samePlace ranDone
  rw [Compiler.EndsBranches, ← toOthers.current_eq] at metOpen
  have writes {unmet : Statement} {stops : List Draft}
      (writesOther : unmet.Writes dropped.draft other.draft stops) :
      ∃ stops, (Statement.conditional condition met unmet).Writes compiler.draft compiler'.draft
        stops :=
    ⟨_, _, _, _, _, _, _, _, _, _, _, stopsMet, stops, writesTest, effect_of_ok ranJump,
      effect_of_ok ranPop, writesMet, effect_of_ok ranSkip, effect_of_ok ranPatch,
      effect_of_ok ranDrop, writesOther, effect_of_ok ranDone, rfl⟩
  rcases otherBranches_read sound (soFar.ends ends) ranOther with
    ⟨rfl, noFurther⟩ | ⟨branches, others, unmet, readsOther, further, ⟨stopsOther, writesOther⟩,
      last⟩
  · refine ⟨compiler.current :: test ++ tested.current :: inside,
      .conditional condition met .empty, ?_, ⟨_, .alone opens derivesTest closes derivesMet⟩,
      writes ⟨rfl, rfl⟩, ?_⟩
    · simpa using soFar.quietly (.patchJump _) ranDone
    · rw [Compiler.EndsBranches, place.current_eq]
      exact fun _ => noFurther
  · have metClosed : met.isOpen = false := by
      rcases Bool.eq_false_or_eq_true met.isOpen with isOpen | isClosed
      · rcases branches with word | word
        · exact absurd word (metOpen isOpen).1
        · exact absurd word (metOpen isOpen).2
      · exact isClosed
    rw [Compiler.EndsBranches, ← place.current_eq] at last
    have readsAll := (soFar.trans readsOther).quietly (.patchJump _) ranDone
    rcases further with ⟨word, rest, rfl, ⟨introduces, _, derives⟩ | ⟨introduces, _, derives⟩⟩
    · rw [← Statement.isOpen_conditional derives.conditional_ne_empty] at last
      exact ⟨compiler.current :: test ++ tested.current :: inside ++ word :: rest, _,
        by simpa using readsAll,
        ⟨_, .alternative opens derivesTest closes derivesMet metClosed introduces derives⟩,
        writes writesOther, last⟩
    · rw [← Statement.isOpen_conditional derives.statement_ne_empty] at last
      exact ⟨compiler.current :: test ++ tested.current :: inside ++ word :: rest, _,
        by simpa using readsAll,
        ⟨_, .otherwise opens derivesTest closes derivesMet metClosed introduces derives⟩,
        writes writesOther, last⟩

theorem whileStatement_read (word : compiler.previous.kind = .keyword .whileKw)
    (ran : whileStatement inner compiler = .ok () compiler') :
    compiler.ReadPhraseRest .statement compiler' := by
  simp only [whileStatement, bind_eq_ok, codeSize_eq_ok] at ran
  rcases ran with ⟨_, opened, ranScope, _, _, ⟨rfl, rfl⟩, _, inParen, ranOpen, _, tested, ranTest,
    _, closed, ranClose, exit, jumped, ranJump, _, popped, ranPop, _, done, ranBody, _, looped,
    ranLoop, _, patched, ranPatch, _, dropped, ranDrop, ranEnd⟩
  have scopePlace := (Quiet.openScope _).samePlace ranScope
  rcases condition_read sound (scopePlace.reads.ends ends) ranOpen ranTest ranClose with
    ⟨opens, closes, test, condition, readsTest, ⟨_, derivesTest⟩, writesTest⟩
  have toBody := ((scopePlace.reads.trans readsTest).quietly (.emitJump _) ranJump).quietly
    (.emit _) ranPop
  rcases sound.statement (toBody.ends ends) ranBody with
    ⟨inside, body, readsBody, ⟨_, derivesBody⟩, ⟨stopsBody, writesBody⟩, last⟩
  have place := ((((Quiet.emitLoop _).samePlace ranLoop).trans
    ((Quiet.patchJump _).samePlace ranPatch)).trans ((Quiet.emit _).samePlace ranDrop)).trans
    (Quiet.closeScope.samePlace ranEnd)
  rw [Compiler.EndsBranches, ← place.current_eq] at last
  refine ⟨opened.current :: test ++ tested.current :: inside, .whileLoop condition body, ?_,
    ⟨_, .whileLoop word opens derivesTest closes derivesBody⟩,
    ⟨_, _, _, _, _, _, _, _, _, _, stopsBody, effect_of_ok ranScope, writesTest,
      effect_of_ok ranJump, effect_of_ok ranPop, writesBody, effect_of_ok ranLoop,
      effect_of_ok ranPatch, effect_of_ok ranDrop, effect_of_ok ranEnd, rfl⟩, last⟩
  simpa using (toBody.trans readsBody).trans place.reads

theorem forInitializer_read (ran : forInitializer inner compiler = .ok () compiler') :
    ∃ tokens initial, compiler.Reads tokens compiler' ∧
      (∃ depth, Grammar.Initial tokens initial depth) ∧
      ∃ stops, initial.Writes compiler.draft compiler'.draft stops := by
  simp only [forInitializer, bind_eq_ok, lookahead_eq_ok] at ran
  rcases ran with ⟨_, _, ⟨rfl, rfl⟩, ran⟩
  rcases exists_chosen ran with ⟨chosen, choice, ran⟩
  split at choice <;> subst choice
  · next semicolon =>
    have advanced := advance_advances ran ends (by simp [semicolon])
    exact ⟨[compiler.current], .empty, advanced.reads, ⟨_, .missing semicolon⟩, [],
      advanced.draft_eq, rfl⟩
  · next word =>
    rcases bind_eq_ok.mp ran with ⟨_, introduced, ranWord, ranRest⟩
    have advanced := advance_advances ranWord ends (by simp [word])
    rcases variableDeclaration_read sound (advanced.reads.ends ends) ranRest with
      ⟨tokens, name, initial, reads, ⟨_, derives⟩, stops, writes⟩
    rw [advanced.draft_eq] at writes
    exact ⟨compiler.current :: tokens, _, advanced.reads.trans reads,
      ⟨_, .varDeclaration word derives⟩, stops, writes⟩
  · rcases expressionStatement_read sound ends ran with
      ⟨tokens, semicolon, value, reads, ⟨_, derives⟩, kind, writes⟩
    exact ⟨_, _, reads, ⟨_, .expression derives kind⟩, writes⟩

theorem forCondition_read {exit : Option Nat}
    (ran : forCondition inner compiler = .ok exit compiler') :
    ∃ tokens condition, compiler.Reads tokens compiler' ∧
      (∃ depth, Grammar.Clause .semicolon tokens condition depth) ∧
      Statement.WritesCondition condition compiler.draft exit compiler'.draft := by
  simp only [forCondition, bind_eq_ok] at ran
  rcases ran with ⟨accepted, _, ranAccept, ran⟩
  rcases accept_advances ranAccept ends (by decide) with ⟨rfl, kind, advanced⟩ | ⟨rfl, _, rfl⟩
  · rcases pure_eq_ok.mp ran with ⟨rfl, rfl⟩
    exact ⟨[compiler.current], none, advanced.reads, ⟨_, .missing kind⟩, rfl, advanced.draft_eq⟩
  · simp only [Bool.false_eq_true, if_false, bind_eq_ok, pure_eq_ok] at ran
    rcases ran with ⟨_, tested, ranTest, _, ended, ranEnd, jump, jumped, ranJump, _, _, ranPop,
      rfl, rfl⟩
    rcases closed_read sound ends ranTest ranEnd (by decide) with
      ⟨tokens, condition, reads, ⟨_, derives⟩, kind, writes⟩
    exact ⟨_, some condition, (reads.quietly (.emitJump _) ranJump).quietly (.emit _) ranPop,
      ⟨_, .present derives kind⟩, _, _, jump, writes, effect_of_ok ranJump,
      effect_of_ok ranPop, rfl⟩

theorem forIncrement_read {start again : Nat}
    (ran : forIncrement inner start compiler = .ok again compiler') :
    ∃ tokens increment, compiler.Reads tokens compiler' ∧
      (∃ depth, Grammar.Clause .rightParen tokens increment depth) ∧
      Statement.WritesIncrement start increment compiler.draft again compiler'.draft := by
  simp only [forIncrement, bind_eq_ok] at ran
  rcases ran with ⟨accepted, _, ranAccept, ran⟩
  rcases accept_advances ranAccept ends (by decide) with ⟨rfl, kind, advanced⟩ | ⟨rfl, _, rfl⟩
  · rcases pure_eq_ok.mp ran with ⟨rfl, rfl⟩
    exact ⟨[compiler.current], none, advanced.reads, ⟨_, .missing kind⟩, rfl, advanced.draft_eq⟩
  · simp only [Bool.false_eq_true, if_false, bind_eq_ok, codeSize_eq_ok, pure_eq_ok] at ran
    rcases ran with ⟨jump, jumped, ranJump, _, _, ⟨rfl, rfl⟩, _, valued, ranValue, _, popped,
      ranPop, _, ended, ranEnd, _, looped, ranLoop, _, _, ranPatch, rfl, rfl⟩
    have readsJump := (Compiler.Reads.refl _).quietly (.emitJump _) ranJump
    rcases expression_read sound (readsJump.ends ends) ranValue with
      ⟨⟨tokens, increment, reads, derives, writes⟩, _⟩
    rcases derives.exists_whole with ⟨_, whole⟩
    have toEnd := (readsJump.trans reads).quietly (.emit _) ranPop
    rcases expect_advances ranEnd (toEnd.ends ends) (by decide) with ⟨kind, advanced⟩
    have loops := effect_of_ok ranLoop
    rw [advanced.draft_eq] at loops
    exact ⟨_, some increment,
      ((toEnd.trans advanced.reads).quietly (.emitLoop _) ranLoop).quietly (.patchJump _) ranPatch,
      ⟨_, .present whole kind⟩, _, _, _, _, jump, effect_of_ok ranJump, rfl, writes,
      effect_of_ok ranPop, loops, effect_of_ok ranPatch⟩

theorem forStatement_read (word : compiler.previous.kind = .keyword .forKw)
    (ran : forStatement inner compiler = .ok () compiler') :
    compiler.ReadPhraseRest .statement compiler' := by
  simp only [forStatement, bind_eq_ok, codeSize_eq_ok, modify_eq_ok] at ran
  rcases ran with ⟨_, opened, ranScope, _, inParen, ranOpen, _, started, ranStart, _, _,
    ⟨rfl, rfl⟩, exit, tested, ranTest, again, advanced, ranAdvance, _, _, rfl, _, done, ranBody,
    _, looped, ranLoop, _, left, ranExit, ranEnd⟩
  have scopePlace := (Quiet.openScope _).samePlace ranScope
  have openedEnds := scopePlace.reads.ends ends
  rcases expect_advances ranOpen openedEnds (by decide) with ⟨opens, openAdvanced⟩
  have inParenEnds := openAdvanced.reads.ends openedEnds
  rcases forInitializer_read sound inParenEnds ranStart with
    ⟨start, initial, readsStart, ⟨_, derivesStart⟩, stopsStart, writesStart⟩
  have startedEnds := readsStart.ends inParenEnds
  rcases forCondition_read sound startedEnds ranTest with
    ⟨test, condition, readsTest, ⟨_, derivesTest⟩, writesTest⟩
  have testedEnds := readsTest.ends startedEnds
  rcases forIncrement_read sound testedEnds ranAdvance with
    ⟨clause, increment, readsAdvance, ⟨_, derivesAdvance⟩, writesAdvance⟩
  have setPlace : advanced.SamePlace (advanced.onDraft fun draft =>
      { draft with scopes := Scope.setLoopStart again draft.scopes }) := ⟨rfl, rfl, rfl, rfl⟩
  have toBody := readsAdvance.trans setPlace.reads
  rcases sound.statement (toBody.ends testedEnds) ranBody with
    ⟨inside, body, readsBody, ⟨_, derivesBody⟩, ⟨stopsBody, writesBody⟩, last⟩
  have place := (((Quiet.emitLoop _).samePlace ranLoop).trans
    ((Quiet.forExit _).samePlace ranExit)).trans (Quiet.closeScope.samePlace ranEnd)
  rw [Compiler.EndsBranches, ← place.current_eq] at last
  rw [openAdvanced.draft_eq] at writesStart
  refine ⟨opened.current :: start ++ test ++ clause ++ inside,
    .forLoop initial condition increment body, ?_,
    ⟨_, .forLoop word opens derivesStart derivesTest derivesAdvance derivesBody⟩,
    ⟨_, _, _, _, _, _, _, _, exit, again, stopsStart, stopsBody, effect_of_ok ranScope, writesStart,
      writesTest, writesAdvance, writesBody, effect_of_ok ranLoop, effect_of_ok ranExit,
      effect_of_ok ranEnd, rfl⟩, last⟩
  have toParen := scopePlace.reads.trans openAdvanced.reads
  simpa using (((((toParen.trans readsStart).trans readsTest).trans toBody).trans readsBody)).trans
    place.reads

end

/-! ## Jumps -/

theorem breakStatement_read (ends : compiler.Ends)
    (word : compiler.previous.kind = .keyword .breakKw)
    (ran : breakStatement compiler = .ok () compiler') :
    compiler.ReadPhraseRest .statement compiler' := by
  simp only [breakStatement, bind_eq_ok, get_eq_ok] at ran
  rcases ran with ⟨_, _, ⟨rfl, rfl⟩, ran⟩
  cases inLoop : Scope.innermostLoop? compiler.draft.scopes with
  | none =>
    rw [inLoop] at ran
    exact absurd ran fail_ne_ok
  | some loop =>
    rw [inLoop] at ran
    simp only [bind_eq_ok, get_eq_ok, modify_eq_ok] at ran
    rcases ran with ⟨_, ended, ranEnd, _, _, ⟨rfl, rfl⟩, _, popped, ranPops, jump, jumped,
      ranJump, rfl⟩
    rcases expect_advances ranEnd ends (by decide) with ⟨kind, advanced⟩
    have pops := effect_of_ok ranPops
    rw [advanced.draft_eq] at pops
    have reads := (advanced.reads.quietly (.emitPops _) ranPops).quietly (.emitJump _) ranJump
    exact ⟨_, .breakLoop, ⟨reads.stream_eq, reads.enclosing_eq⟩, ⟨_, .breakLoop word kind⟩,
      ⟨_, loop, _, _, jump, inLoop, pops, effect_of_ok ranJump, rfl, rfl⟩,
      by simp [Statement.isOpen]⟩

theorem continueStatement_read (ends : compiler.Ends)
    (word : compiler.previous.kind = .keyword .continueKw)
    (ran : continueStatement compiler = .ok () compiler') :
    compiler.ReadPhraseRest .statement compiler' := by
  simp only [continueStatement, bind_eq_ok, get_eq_ok] at ran
  rcases ran with ⟨_, _, ⟨rfl, rfl⟩, ran⟩
  cases inLoop : Scope.innermostLoop? compiler.draft.scopes with
  | none =>
    rw [inLoop] at ran
    exact absurd ran fail_ne_ok
  | some loop =>
    rw [inLoop] at ran
    simp only [bind_eq_ok, get_eq_ok] at ran
    rcases ran with ⟨_, ended, ranEnd, _, _, ⟨rfl, rfl⟩, _, popped, ranPops, ranLoop⟩
    rcases expect_advances ranEnd ends (by decide) with ⟨kind, advanced⟩
    have pops := effect_of_ok ranPops
    rw [advanced.draft_eq] at pops
    exact ⟨_, .continueLoop,
      (advanced.reads.quietly (.emitPops _) ranPops).quietly (.emitLoop _) ranLoop,
      ⟨_, .continueLoop word kind⟩, ⟨_, loop, _, inLoop, pops, effect_of_ok ranLoop, rfl⟩,
      by simp [Statement.isOpen]⟩

theorem returnStatement_read (sound : inner.Sound) (ends : compiler.Ends)
    (word : compiler.previous.kind = .keyword .returnKw)
    (ran : returnStatement inner compiler = .ok () compiler') :
    compiler.ReadPhraseRest .statement compiler' := by
  simp only [returnStatement, bind_eq_ok, get_eq_ok] at ran
  rcases ran with ⟨_, _, ⟨rfl, rfl⟩, ran⟩
  cases inFunction : compiler.draft.kind with
  | script =>
    rw [inFunction] at ran
    exact absurd ran fail_ne_ok
  | function =>
    rw [inFunction] at ran
    simp only [bind_eq_ok] at ran
    rcases ran with ⟨accepted, _, ranAccept, ran⟩
    rcases accept_advances ranAccept ends (by decide) with ⟨rfl, kind, advanced⟩ | ⟨rfl, _, rfl⟩
    · simp only [if_true] at ran
      have returns := effect_of_ok ran
      rw [advanced.draft_eq] at returns
      exact ⟨_, .returnValue none, advanced.reads.quietly .emitReturn ran,
        ⟨_, .returnValue word (.missing kind)⟩, ⟨_, inFunction, returns, rfl⟩,
        by simp [Statement.isOpen]⟩
    · simp only [Bool.false_eq_true, if_false, bind_eq_ok] at ran
      rcases ran with ⟨_, valued, ranValue, _, ended, ranEnd, ranReturn⟩
      rcases closed_read sound ends ranValue ranEnd (by decide) with
        ⟨tokens, value, reads, ⟨_, derives⟩, kind, writes⟩
      exact ⟨_, .returnValue (some value), reads.quietly (.emit _) ranReturn,
        ⟨_, .returnValue word (.present derives kind)⟩,
        ⟨_, inFunction, _, writes, effect_of_ok ranReturn, rfl⟩, by simp [Statement.isOpen]⟩

theorem statement_read (sound : inner.Sound) (ends : compiler.Ends)
    (ran : statement inner compiler = .ok () compiler') :
    compiler.ReadPhrase .statement compiler' := by
  simp only [statement, bind_eq_ok, lookahead_eq_ok] at ran
  rcases ran with ⟨_, _, ⟨rfl, rfl⟩, ran⟩
  rcases exists_chosen ran with ⟨chosen, choice, ran⟩
  split at choice <;> subst choice
  · next word =>
    exact phrase_read ends word (by simp) ran fun _ => printStatement_read sound
  · next word =>
    refine phrase_read ends word (by simp) ran fun _ ends word ran => ?_
    rcases conditional_read sound ends ran with ⟨tokens, branches, reads, ⟨_, derives⟩, rest⟩
    exact ⟨tokens, branches, reads, ⟨_, .branch word derives⟩, rest⟩
  · next word =>
    exact phrase_read ends word (by simp) ran fun _ => whileStatement_read sound
  · next word =>
    exact phrase_read ends word (by simp) ran fun _ => forStatement_read sound
  · next word =>
    exact phrase_read ends word (by simp) ran fun _ => breakStatement_read
  · next word =>
    exact phrase_read ends word (by simp) ran fun _ => continueStatement_read
  · next word =>
    exact phrase_read ends word (by simp) ran fun _ => returnStatement_read sound
  · next brace =>
    exact phrase_read ends brace (by simp) ran fun _ => blockStatement_read sound
  · rcases expressionStatement_read sound ends ran with
      ⟨tokens, semicolon, value, reads, ⟨_, derives⟩, kind, writes⟩
    exact ⟨_, _, reads, ⟨_, .expression derives kind⟩, writes, by simp [Statement.isOpen]⟩

/-! ## Functions -/

def ParameterStep (name : String) (before after : Unit × Draft) : Prop :=
  ∃ binding declared, before.2.arity ≠ maxArguments ∧
    Draft.Declares name { before.2 with arity := before.2.arity + 1 } binding declared ∧
    Effect (define binding) declared () after.2

theorem parameters_chain {names : List String} {stop : Unit} {before after : Draft}
    (chain : Chain ParameterStep names (start, before) (stop, after)) :
    Statement.WritesParameters names before after := by
  induction names generalizing before with
  | nil =>
    cases chain
    rfl
  | cons name names ih =>
    rcases chain with _ | ⟨first, rest⟩
    rename_i middle
    rcases middle with ⟨_, draft⟩
    rcases first with ⟨binding, declared, few, declares, defines⟩
    exact ⟨binding, declared, draft, few, declares, defines, ih rest⟩

theorem parameter_read {stop : Unit} (ends : compiler.Ends)
    (ran : parameter start compiler = .ok stop compiler') :
    ∃ tokens name, compiler.Reads tokens compiler' ∧ Grammar.Parameter tokens name ∧
      ParameterStep name (start, compiler.draft) (stop, compiler'.draft) := by
  simp only [parameter, bind_eq_ok, get_eq_ok] at ran
  rcases ran with ⟨_, _, ⟨rfl, rfl⟩, ran⟩
  split at ran
  · exact absurd ran failAhead_ne_ok
  · next few =>
    simp only [bind_eq_ok, modify_eq_ok] at ran
    rcases ran with ⟨_, counted, counts, binding, declared, ranDeclare, ranDefine⟩
    have countPlace : compiler.SamePlace counted := by
      rw [← counts]
      exact ⟨rfl, rfl, rfl, rfl⟩
    have countDraft : counted.draft =
      { compiler.draft with arity := compiler.draft.arity + 1 } := by
      rw [← counts]
      rfl
    rcases declare_read (countPlace.reads.ends ends) ranDeclare with ⟨named, readsName, declares, _⟩
    rw [countDraft] at declares
    exact ⟨[counted.current], counted.current.lexeme,
      (countPlace.reads.trans readsName).quietly (.define _) ranDefine, ⟨_, rfl, named, rfl⟩,
      binding, _, few, declares, effect_of_ok ranDefine⟩

theorem parameters_read (ends : compiler.Ends)
    (ran : parameters compiler = .ok () compiler') :
    ∃ (opening closing : Token) (tokens : List Token) (names : List String),
      compiler.Reads (opening :: tokens ++ [closing]) compiler' ∧ opening.kind = .leftParen ∧
      Grammar.Separated Grammar.Parameter tokens names ∧ closing.kind = .rightParen ∧
      Statement.WritesParameters names compiler.draft compiler'.draft := by
  simp only [parameters, bind_eq_ok, lookahead_eq_ok] at ran
  rcases ran with ⟨_, opened, ranOpen, _, _, ⟨rfl, rfl⟩, ran⟩
  rcases expect_advances ranOpen ends (by decide) with ⟨opens, openAdvanced⟩
  have openedEnds := openAdvanced.reads.ends ends
  split at ran
  · simp only [separated, bind_eq_ok, get_eq_ok] at ran
    rcases ran with ⟨_, read, ⟨_, _, ⟨rfl, rfl⟩, ranItems⟩, ranClose⟩
    rcases separatedWithin_read parameter_read openedEnds ranItems with
      ⟨tokens, first, rest, reads, derives, chain⟩
    rcases expect_advances ranClose (reads.ends openedEnds) (by decide) with ⟨closes, closeAdvanced⟩
    have writes := parameters_chain chain
    rw [openAdvanced.draft_eq, ← closeAdvanced.draft_eq] at writes
    exact ⟨compiler.current, read.current, tokens, first :: rest,
      by simpa using (openAdvanced.reads.trans reads).trans closeAdvanced.reads, opens, derives,
      closes, writes⟩
  · rcases expect_advances ran openedEnds (by decide) with ⟨closes, closeAdvanced⟩
    refine ⟨compiler.current, opened.current, [], [],
      by simpa using openAdvanced.reads.trans closeAdvanced.reads, opens, .none, closes, ?_⟩
    exact closeAdvanced.draft_eq.trans openAdvanced.draft_eq

theorem functionBody_read (sound : inner.Sound) (ends : compiler.Ends)
    (ran : functionBody inner compiler = .ok () compiler') :
    ∃ tokens parameters body function stops, compiler.Reads tokens compiler' ∧
      Grammar.FunctionTail tokens parameters body ∧
      Statement.WritesFunction compiler.previous.lexeme parameters body function stops ∧
      Effect (emitConstant (.function function)) compiler.draft () compiler'.draft := by
  simp only [functionBody, beginFunction, bind_eq_ok, lastLexeme_eq_ok, modify_eq_ok] at ran
  rcases ran with ⟨_, begun, ⟨_, _, ⟨rfl, rfl⟩, begins⟩, _, taken, ranParameters, _, entered,
    ranBrace, _, done, ranBlock, _, returned, ranReturn, function, finished, ranEnd, ranHold⟩
  have begunStream : begun.stream = compiler.stream := by
    rw [← begins]
    rfl
  have begunDraft : begun.draft = (Draft.named compiler.previous.lexeme).openScope .function := by
    rw [← begins]
  have begunEnclosing : begun.enclosing = compiler.draft :: compiler.enclosing := by
    rw [← begins]
  have begunEnds : begun.Ends := by
    rw [Compiler.Ends, begunStream]
    exact ends
  rcases parameters_read begunEnds ranParameters with
    ⟨opening, closing, names, parameters, readsNames, opens, takes, closes, writesNames⟩
  have takenEnds := readsNames.ends begunEnds
  rcases expect_advances ranBrace takenEnds (by decide) with ⟨brace, braceAdvanced⟩
  have enteredEnds := braceAdvanced.reads.ends takenEnds
  rcases block_read sound enteredEnds ranBlock with
    ⟨inside, ending, body, readsBody, derivesBody, endsBody, stops, writesBody⟩
  rw [braceAdvanced.draft_eq] at writesBody
  rw [begunDraft] at writesNames
  have reads := ((readsNames.trans braceAdvanced.reads).trans readsBody).quietly .emitReturn
    ranReturn
  have returnedEnclosing := reads.enclosing_eq
  rw [begunEnclosing] at returnedEnclosing
  simp only [endFunction, returnedEnclosing, EStateM.Result.ok.injEq] at ranEnd
  rcases ranEnd with ⟨rfl, rfl⟩
  have place := (Quiet.emitConstant _).samePlace ranHold
  have holds : Effect (emitConstant (.function returned.draft.function)) compiler.draft ()
      compiler'.draft := ⟨_, _, ranHold, rfl, rfl⟩
  refine ⟨opening :: names ++ closing :: taken.current :: inside ++ [ending], parameters, body, _,
    stops, ⟨?_, place.enclosing_eq⟩,
    ⟨_, _, _, _, _, _, rfl, opens, takes, closes, brace, derivesBody, endsBody⟩,
    ⟨_, _, _, writesNames, writesBody, effect_of_ok ranReturn, rfl⟩, holds⟩
  rw [← begunStream, reads.stream_eq]
  have same : returned.stream = compiler'.stream := place.reads.stream_eq
  simp [same]

end Compile

end StackScript
