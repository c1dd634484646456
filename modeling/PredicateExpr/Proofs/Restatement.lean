import Mathlib.Data.List.Forall2
import PredicateExpr.Proofs.Nesting.Reading
import PredicateExpr.Proofs.Phrase.Moving
import PredicateExpr.Token.Restatement

/-!
# What parsing takes no notice of

The form of tokens plays no part in parsing. Tokens in another form are the same expression, or have
the same fault at the byte to which it was moved (`parse_restatement`). Reading the two forms goes
through the same open levels, but for the bytes that these remember (`Nesting.next_move`).
-/

namespace PredicateExpr

open Grammar (significant Spells)

/-! ## Moved levels -/

/-- An open name that starts elsewhere. -/
def OpenWord.move (f : Nat → Nat) (word : OpenWord) : OpenWord :=
  ⟨word.atom, f word.offset⟩

namespace Level

/-- A level whose entries start elsewhere. -/
def move (f : Nat → Nat) (level : Level) : Level :=
  ⟨level.latest.map (Piece.move f), level.word?.map (OpenWord.move f)⟩

variable (f : Nat → Nat) (level : Level)

/-- A moved level has moved entries. -/
@[simp] theorem pieces_move : (level.move f).pieces = level.pieces.map (Piece.move f) := by
  obtain ⟨latest, word?⟩ := level
  cases word? <;> rfl

@[simp] theorem push_move (piece : Piece) :
    (level.move f).push (piece.move f) = (level.push piece).move f := by
  rw [push, pieces_move]
  rfl

@[simp] theorem openWord_move (name : String) (offset : Nat) :
    (level.move f).openWord name (f offset) = (level.openWord name offset).move f := by
  rw [openWord, pieces_move]
  rfl

@[simp] theorem addArg?_move (arg : String) :
    (level.move f).addArg? arg = (level.addArg? arg).map (move f) := by
  obtain ⟨latest, word?⟩ := level
  cases word? <;> rfl

/-- A moved level is the same expression, or what is wrong with it is moved. -/
theorem fold_move : (level.move f).fold = moved f id level.fold := by
  have hreverse : (level.move f).pieces.reverse = Phrase.move f level.pieces.reverse := by
    rw [pieces_move, Phrase.move, List.map_reverse]
  rw [fold, hreverse]
  exact Phrase.fold_move f level.pieces.reverse

end Level

namespace Nesting

/-- Open levels whose entries and opening brackets start elsewhere. -/
def move (f : Nat → Nat) (nesting : Nesting) : Nesting :=
  ⟨nesting.level.move f, nesting.outer.map fun opened => (opened.1.move f, f opened.2)⟩

variable {f : Nat → Nat} {token other : Token} {tokens others : List Token}

/-! ## Reading another form -/

/-- What a token does to the open levels, another form of it does to the moved ones. -/
theorem next_move (groups : Nat) (h : token.Restates f other) (nesting : Nesting) :
    (nesting.move f).next groups other =
      moved f (Option.map (move f)) (nesting.next groups token) := by
  obtain ⟨level, outer⟩ := nesting
  cases hkind : token.kind with
  | opener =>
    have hother : other.kind = .opener := h.kind.trans hkind
    by_cases hlt : groups + outer.length < maxDepth
    · have hlt' : groups + (outer.map fun opened => (opened.1.move f, f opened.2)).length
          < maxDepth := by rwa [List.length_map]
      rw [next_of_opener hkind hlt]
      refine (next_of_opener hother hlt').trans ?_
      rw [h.offset]
      rfl
    · have hle := Nat.not_lt.mp hlt
      have hle' : maxDepth ≤
          groups + (outer.map fun opened => (opened.1.move f, f opened.2)).length := by
        rwa [List.length_map]
      rw [next_of_opener_of_le hkind hle]
      refine (next_of_opener_of_le hother hle').trans ?_
      rw [h.offset]
      rfl
  | closer =>
    have hother : other.kind = .closer := h.kind.trans hkind
    cases outer with
    | nil => simp [next, hkind, hother, move]
    | cons opened outer =>
      obtain ⟨around, offset⟩ := opened
      rw [next_of_closer hkind]
      refine (next_of_closer hother (around.move f) (f offset)).trans ?_
      refine moved_bind (level.fold_move f) fun group => ?_
      have hpush := around.push_move f (.operand ⟨group, offset⟩)
      simp only [moved_ok, Option.map_some, move, ← hpush]
      rfl
  | separator =>
    have hother : other.kind = .separator := h.kind.trans hkind
    rw [next_of_separator hkind, next_of_separator hother]
    rfl
  | operator =>
    have hother : other.kind = .operator := h.kind.trans hkind
    have hsame : Operator.ofText? other.text = Operator.ofText? token.text := by
      rcases h.operator hkind with htext | ⟨op, hspells, hrespelled⟩
      · rw [htext]
      · rw [(Grammar.spells_iff.mp hspells).2, (Grammar.spells_iff.mp hrespelled).2]
    cases hop : Operator.ofText? token.text with
    | some op =>
      have hspells : Spells token op := Grammar.spells_iff.mpr ⟨hkind, hop⟩
      have hrespelled : Spells other op := Grammar.spells_iff.mpr ⟨hother, hsame.trans hop⟩
      rw [next_of_spells hspells]
      refine (next_of_spells hrespelled).trans ?_
      have hpush := level.push_move f (.operator op token.offset)
      rw [h.offset, moved_ok, Option.map_some, move, ← hpush]
      rfl
    | none =>
      have htext : other.text = token.text := by
        rcases h.operator hkind with htext | ⟨op, hspells, _⟩
        · exact htext
        · rw [(Grammar.spells_iff.mp hspells).2] at hop
          cases hop
      simp only [next, hkind, hother, htext, hop, h.offset]
      rfl
  | literal =>
    have hother : other.kind = .literal := h.kind.trans hkind
    have hargs := level.addArg?_move f token.text
    simp only [next, hkind, hother, move, h.literal hkind, hargs, h.offset]
    cases level.addArg? token.text <;> rfl
  | word =>
    have hother : other.kind = .word := h.kind.trans hkind
    rw [next_of_word hkind]
    refine (next_of_word hother).trans ?_
    rw [h.offset, h.word hkind, Level.openWord_move]
    rfl

/-- Reading another form goes through the same levels and leaves another form of what remains, or it
is stopped by the same error. -/
theorem read_move (groups : Nat) (h : List.Forall₂ (Token.Restates f) tokens others)
    (nesting : Nesting) :
    (∃ last rest rest', nesting.read groups tokens = .ok (last, rest) ∧
      (nesting.move f).read groups others = .ok (last.move f, rest') ∧
      List.Forall₂ (Token.Restates f) rest rest') ∨
    ∃ e, nesting.read groups tokens = .error e ∧
      (nesting.move f).read groups others = .error (e.mapOffset f) := by
  induction h generalizing nesting with
  | nil => exact .inl ⟨nesting, [], [], rfl, rfl, .nil⟩
  | @cons token other tokens others hhead htail ih =>
    have hmove := next_move groups hhead nesting
    cases hnext : nesting.next groups token with
    | error e =>
      rw [hnext] at hmove
      exact .inr ⟨e, read_cons_of_error hnext, read_cons_of_error hmove⟩
    | ok next? =>
      rw [hnext] at hmove
      cases next? with
      | none =>
        have hrest := List.Forall₂.cons hhead htail
        exact .inl ⟨nesting, _, _, read_cons_of_none hnext, read_cons_of_none hmove, hrest⟩
      | some nesting' =>
        rw [read_cons_of_some hnext, read_cons_of_some hmove]
        exact ih nesting'

/-- Moved levels are closed to the same expression, or the same bracket is found open. -/
theorem close_move (f : Nat → Nat) (nesting : Nesting) :
    (nesting.move f).close = moved f id nesting.close := by
  obtain ⟨level, outer⟩ := nesting
  refine moved_bind (level.fold_move f) fun group => ?_
  cases outer <;> rfl

end Nesting

/-- Without separators, two forms of a row of tokens match one by one. -/
theorem Token.Restatement.forall₂_significant {f : Nat → Nat} {tokens others : List Token}
    (h : Restatement f tokens others) :
    List.Forall₂ (Restates f) (significant tokens) (significant others) := by
  induction h with
  | nil => exact .nil
  | @cons token other tokens others hhead _ ih =>
    by_cases hkind : token.kind = .separator
    · have hother : other.kind = .separator := hhead.kind.trans hkind
      rw [Grammar.significant_cons_of_separator hkind,
        Grammar.significant_cons_of_separator hother]
      exact ih
    · have hother : other.kind ≠ .separator := fun heq => hkind (hhead.kind.symm.trans heq)
      rw [Grammar.significant_cons hkind, Grammar.significant_cons hother]
      exact .cons hhead ih
  | insert hkind _ ih => rwa [Grammar.significant_cons_of_separator hkind]
  | delete hkind _ ih => rwa [Grammar.significant_cons_of_separator hkind]

/-- Tokens in another form are the same expression, or have the same fault at the byte to which it
was moved. -/
theorem parse_restatement {f : Nat → Nat} {tokens others : List Token}
    (h : Token.Restatement f tokens others) :
    parse others = (parse tokens).mapError (CompileError.mapOffset f) := by
  rw [← parse_significant tokens, ← parse_significant others]
  unfold parse readLevel
  -- the open levels at the start are the same wherever they are moved
  have hstart : Nesting.start.move f = Nesting.start := rfl
  have hread := Nesting.read_move 0 h.forall₂_significant Nesting.start
  rw [hstart] at hread
  rcases hread with ⟨last, rest, rest', hread, hread', hrest⟩ | ⟨e, hread, hread'⟩
  · have hclose := last.close_move f
    rw [hread, hread']
    simp only [ok_bind, hclose]
    cases last.close with
    | error e => rfl
    | ok expression =>
      cases hrest with
      | nil => rfl
      | cons hstray _ =>
        exact congrArg (fun place => Except.error (CompileError.strayCloser place)) hstray.offset
  · rw [hread, hread']
    rfl

/-- A name with an argument, and a group that lacks an operand. -/
def lacking : List Token :=
  [⟨.word, "f", 0⟩, ⟨.literal, "1", 2⟩, ⟨.operator, "and", 4⟩, ⟨.separator, " ", 7⟩,
    ⟨.opener, "(", 8⟩, ⟨.word, "b", 9⟩, ⟨.operator, "|", 10⟩, ⟨.closer, ")", 11⟩]

/-- The same in another form: the brackets do not match, the operators have other spellings, and
there are separators in front of the argument and of the closing bracket. -/
def lackingStill : List Token :=
  [⟨.word, "f", 3⟩, ⟨.separator, ",", 1⟩, ⟨.literal, "1", 23⟩, ⟨.operator, "&", 43⟩,
    ⟨.opener, "[", 83⟩, ⟨.word, "b", 93⟩, ⟨.operator, "OR", 103⟩, ⟨.separator, "", 0⟩,
    ⟨.closer, "\x7d", 113⟩]

/-- The operand is missing at the byte to which its operator was moved. -/
theorem parse_restatement_of_group :
    Token.Restatement (10 * · + 3) lacking lackingStill ∧
      parse lackingStill = .error (.missingOperand (.binary .or) .right 103) := by
  have hand : Spells ⟨.operator, "and", 4⟩ (.binary .and) ∧
      Spells ⟨.operator, "&", 43⟩ (.binary .and) := by decide
  have hor : Spells ⟨.operator, "|", 10⟩ (.binary .or) ∧
      Spells ⟨.operator, "OR", 103⟩ (.binary .or) := by decide
  have hforms : Token.Restatement (10 * · + 3) lacking lackingStill := by
    refine .cons ⟨rfl, rfl, ?_, ?_, ?_⟩ (.insert rfl (.cons ⟨rfl, rfl, ?_, ?_, ?_⟩
      (.cons ⟨rfl, rfl, nofun, nofun, fun _ => .inr ⟨_, hand⟩⟩ (.delete rfl
      (.cons ⟨rfl, rfl, nofun, nofun, nofun⟩ (.cons ⟨rfl, rfl, ?_, ?_, ?_⟩
      (.cons ⟨rfl, rfl, nofun, nofun, fun _ => .inr ⟨_, hor⟩⟩ (.insert rfl
      (.cons ⟨rfl, rfl, nofun, nofun, nofun⟩ .nil)))))))))
    all_goals simp
  refine ⟨hforms, ?_⟩
  rw [parse_restatement hforms]
  decide

end PredicateExpr
