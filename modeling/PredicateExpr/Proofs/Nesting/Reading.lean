import Mathlib.Tactic.Common
import PredicateExpr.Grammar
import PredicateExpr.Proofs.Outcome

/-!
# Reading tokens in parts

`Nesting.read` goes on from where it stands, so that a list of tokens can be read in parts
(`Nesting.read_append`), and separators leave no trace (`parse_significant`). The lemmas on
`Nesting.next` say what each kind of token does to the open levels.
-/

namespace PredicateExpr

open Grammar (significant Spells)

namespace Level

/-- A level has no entries at its start. -/
@[simp] theorem pieces_start : start.pieces = [] := rfl

/-- The entry that is added is the latest one, behind the name that was open. -/
theorem pieces_push (level : Level) (piece : Piece) :
    (level.push piece).pieces = piece :: level.pieces := rfl

end Level

namespace Nesting

variable {groups : Nat} {level : Level} {outer : List (Level × Nat)} {token : Token}

/-! ## One token -/

/-- An opening bracket starts a level, unless too many groups are open. -/
theorem next_of_opener (h : token.kind = .opener) (hlt : groups + outer.length < maxDepth) :
    next groups ⟨level, outer⟩ token =
      .ok (some ⟨.start, (level, token.offset) :: outer⟩) := by
  simp [next, h, hlt]

/-- With too many groups open around it an opening bracket is refused. -/
theorem next_of_opener_of_le (h : token.kind = .opener)
    (hle : maxDepth ≤ groups + outer.length) :
    next groups ⟨level, outer⟩ token = .error (.groupsTooDeep token.offset) := by
  simp [next, h, Nat.not_lt.mpr hle]

/-- A closing bracket folds the innermost level into an operand of the level around it. -/
theorem next_of_closer (h : token.kind = .closer) (around : Level) (offset : Nat) :
    next groups ⟨level, (around, offset) :: outer⟩ token =
      level.fold >>= fun group =>
        .ok (some ⟨around.push (.operand ⟨group, offset⟩), outer⟩) := by
  simp only [next, h]
  rfl

/-- A separator changes nothing. -/
theorem next_of_separator (h : token.kind = .separator) (nesting : Nesting) :
    next groups nesting token = .ok (some nesting) := by
  simp [next, h]

/-- An operator becomes an entry of the innermost level. -/
theorem next_of_spells {op : Operator} (h : Spells token op) :
    next groups ⟨level, outer⟩ token =
      .ok (some ⟨level.push (.operator op token.offset), outer⟩) := by
  obtain ⟨hkind, hop⟩ := Grammar.spells_iff.mp h
  simp [next, hkind, hop]

/-- A word opens a name on the innermost level. -/
theorem next_of_word (h : token.kind = .word) :
    next groups ⟨level, outer⟩ token =
      .ok (some ⟨level.openWord token.text token.offset, outer⟩) := by
  simp [next, h]

/-- A literal is an argument of the open name. -/
theorem next_of_literal (h : token.kind = .literal) (latest : List Piece) (word : OpenWord) :
    next groups ⟨⟨latest, some word⟩, outer⟩ token =
      .ok (some ⟨⟨latest, some ⟨⟨word.atom.name, word.atom.args ++ [token.text]⟩,
        word.offset⟩⟩, outer⟩) := by
  simp [next, h, Level.addArg?]

/-- All that a token can do to the open levels. -/
inductive Advance (groups : Nat) : Nesting → Token → Nesting → Prop
  /-- An opening bracket starts a level. -/
  | opener {level : Level} {outer : List (Level × Nat)} {token : Token} :
      token.kind = .opener → groups + outer.length < maxDepth →
      Advance groups ⟨level, outer⟩ token ⟨.start, (level, token.offset) :: outer⟩
  /-- A closing bracket folds a level. -/
  | closer {level around : Level} {offset : Nat} {outer : List (Level × Nat)} {token : Token}
      {group : Measured} :
      token.kind = .closer → level.fold = .ok group →
      Advance groups ⟨level, (around, offset) :: outer⟩ token
        ⟨around.push (.operand ⟨group, offset⟩), outer⟩
  /-- A separator does nothing. -/
  | separator {nesting : Nesting} {token : Token} :
      token.kind = .separator → Advance groups nesting token nesting
  /-- An operator is an entry of its level. -/
  | operator {level : Level} {outer : List (Level × Nat)} {token : Token} {op : Operator} :
      Spells token op →
      Advance groups ⟨level, outer⟩ token ⟨level.push (.operator op token.offset), outer⟩
  /-- A literal is an argument of the name before it. -/
  | literal {latest : List Piece} {word : OpenWord} {outer : List (Level × Nat)}
      {token : Token} :
      token.kind = .literal →
      Advance groups ⟨⟨latest, some word⟩, outer⟩ token
        ⟨⟨latest, some ⟨⟨word.atom.name, word.atom.args ++ [token.text]⟩, word.offset⟩⟩, outer⟩
  /-- A word starts a name. -/
  | word {level : Level} {outer : List (Level × Nat)} {token : Token} :
      token.kind = .word →
      Advance groups ⟨level, outer⟩ token ⟨level.openWord token.text token.offset, outer⟩

/-- Nothing else happens to the open levels when a token is read. -/
theorem advance_of_next {nesting nesting' : Nesting}
    (h : nesting.next groups token = .ok (some nesting')) :
    Advance groups nesting token nesting' := by
  obtain ⟨⟨latest, word?⟩, outer⟩ := nesting
  cases hkind : token.kind with
  | opener =>
    by_cases hlt : groups + outer.length < maxDepth
    · rw [next_of_opener hkind hlt] at h
      cases h
      exact .opener hkind hlt
    · rw [next_of_opener_of_le hkind (Nat.not_lt.mp hlt)] at h
      cases h
  | closer =>
    cases outer with
    | nil => simp [next, hkind] at h
    | cons opened outer =>
      rw [next_of_closer hkind] at h
      obtain ⟨group, hfold, hnext⟩ := bind_eq_ok_iff.mp h
      cases hnext
      exact .closer hkind hfold
  | separator =>
    rw [next_of_separator hkind] at h
    cases h
    exact .separator hkind
  | operator =>
    cases hop : Operator.ofText? token.text with
    | none => simp [next, hkind, hop] at h
    | some op =>
      have hspells : Spells token op := Grammar.spells_iff.mpr ⟨hkind, hop⟩
      rw [next_of_spells hspells] at h
      cases h
      exact .operator hspells
  | literal =>
    cases word? with
    | none => simp [next, hkind, Level.addArg?] at h
    | some word =>
      rw [next_of_literal hkind] at h
      cases h
      exact .literal hkind
  | word =>
    rw [next_of_word hkind] at h
    cases h
    exact .word hkind

/-- All that can be wrong with a token. -/
inductive Refuse (groups : Nat) : Nesting → Token → CompileError → Prop
  /-- Too many groups are open around an opening bracket. -/
  | opener {nesting : Nesting} {token : Token} :
      token.kind = .opener → maxDepth ≤ groups + nesting.outer.length →
      Refuse groups nesting token (.groupsTooDeep token.offset)
  /-- The level that a closing bracket ends is no expression. -/
  | closer {level around : Level} {offset : Nat} {outer : List (Level × Nat)} {token : Token}
      {error : CompileError} :
      token.kind = .closer → level.fold = .error error →
      Refuse groups ⟨level, (around, offset) :: outer⟩ token error
  /-- A text spells no operator. -/
  | operator {nesting : Nesting} {token : Token} :
      token.kind = .operator → Operator.ofText? token.text = none →
      Refuse groups nesting token (.unknownOperator token.text token.offset)
  /-- No name stands before a literal. -/
  | literal {nesting : Nesting} {token : Token} :
      token.kind = .literal → nesting.level.word? = none →
      Refuse groups nesting token (.strayLiteral token.offset)

/-- A token is refused for nothing else. -/
theorem refuse_of_next {nesting : Nesting} {error : CompileError}
    (h : nesting.next groups token = .error error) : Refuse groups nesting token error := by
  obtain ⟨⟨latest, word?⟩, outer⟩ := nesting
  cases hkind : token.kind with
  | opener =>
    by_cases hlt : groups + outer.length < maxDepth
    · rw [next_of_opener hkind hlt] at h
      cases h
    · rw [next_of_opener_of_le hkind (Nat.not_lt.mp hlt)] at h
      cases h
      exact .opener hkind (Nat.not_lt.mp hlt)
  | closer =>
    cases outer with
    | nil => simp [next, hkind] at h
    | cons opened outer =>
      rw [next_of_closer hkind] at h
      cases hfold : Level.fold ⟨latest, word?⟩ with
      | error e =>
        rw [hfold] at h
        cases h
        exact .closer hkind hfold
      | ok group =>
        rw [hfold] at h
        cases h
  | separator =>
    rw [next_of_separator hkind] at h
    cases h
  | operator =>
    cases hop : Operator.ofText? token.text with
    | none =>
      simp only [next, hkind, hop] at h
      cases h
      exact .operator hkind hop
    | some op =>
      rw [next_of_spells (Grammar.spells_iff.mpr ⟨hkind, hop⟩)] at h
      cases h
  | literal =>
    cases word? with
    | none =>
      simp only [next, hkind, Level.addArg?, Option.map_none] at h
      cases h
      exact .literal hkind rfl
    | some word =>
      rw [next_of_literal hkind] at h
      cases h
  | word =>
    rw [next_of_word hkind] at h
    cases h

/-- Reading stops at a closing bracket that no level was opened for, and nowhere else. -/
theorem eq_closer_of_next {nesting : Nesting} (h : nesting.next groups token = .ok none) :
    token.kind = .closer ∧ nesting.outer = [] := by
  unfold next at h
  split at h
  · split at h <;> cases h
  · rename_i hkind
    split at h
    · rename_i houter
      exact ⟨hkind, houter⟩
    · obtain ⟨group, _, hnext⟩ := bind_eq_ok_iff.mp h
      cases hnext
  · cases h
  · split at h <;> cases h
  · split at h <;> cases h
  · cases h

/-! ## Several tokens -/

/-- Where a token is taken, the others are read after it. -/
theorem read_cons_of_some {nesting nesting' : Nesting} {tokens : List Token}
    (h : nesting.next groups token = .ok (some nesting')) :
    nesting.read groups (token :: tokens) = nesting'.read groups tokens := by
  rw [read, h]
  rfl

/-- A token that closes the first level remains, with all behind it. -/
theorem read_cons_of_none {nesting : Nesting} {tokens : List Token}
    (h : nesting.next groups token = .ok none) :
    nesting.read groups (token :: tokens) = .ok (nesting, token :: tokens) := by
  rw [read, h]
  rfl

/-- A token that is refused ends the reading. -/
theorem read_cons_of_error {nesting : Nesting} {tokens : List Token} {e : CompileError}
    (h : nesting.next groups token = .error e) :
    nesting.read groups (token :: tokens) = .error e := by
  rw [read, h]
  rfl

/-- Tokens that are read begin with one that is read, or with one at which reading stops. -/
theorem next_of_read_cons {nesting nesting' : Nesting} {tokens rest : List Token}
    (h : nesting.read groups (token :: tokens) = .ok (nesting', rest)) :
    (∃ between, nesting.next groups token = .ok (some between) ∧
        between.read groups tokens = .ok (nesting', rest)) ∨
      nesting.next groups token = .ok none ∧ nesting' = nesting ∧ rest = token :: tokens := by
  cases hnext : nesting.next groups token with
  | error e =>
    rw [read_cons_of_error hnext] at h
    cases h
  | ok next? =>
    cases next? with
    | none =>
      rw [read_cons_of_none hnext] at h
      cases h
      exact .inr ⟨rfl, rfl, rfl⟩
    | some between =>
      rw [read_cons_of_some hnext] at h
      exact .inl ⟨between, rfl, h⟩

/-- What is read of a list of tokens decides how the tokens behind it are read. -/
theorem read_append (groups : Nat) (nesting : Nesting) (ts us : List Token) :
    nesting.read groups (ts ++ us) =
      nesting.read groups ts >>= fun (nesting, rest) =>
        match rest with
        | [] => nesting.read groups us
        | stray :: rest => .ok (nesting, stray :: rest ++ us) := by
  induction ts generalizing nesting with
  | nil => rfl
  | cons token ts ih =>
    rw [List.cons_append]
    cases hnext : nesting.next groups token with
    | error e => rw [read_cons_of_error hnext, read_cons_of_error hnext, error_bind]
    | ok next? =>
      cases next? with
      | none => rw [read_cons_of_none hnext, read_cons_of_none hnext]; rfl
      | some nesting' => rw [read_cons_of_some hnext, read_cons_of_some hnext, ih]

/-- Tokens that are all read leave the reading of what follows to the levels they lead to. -/
theorem read_append_of_ok {nesting nesting' : Nesting} {ts : List Token}
    (h : nesting.read groups ts = .ok (nesting', [])) (us : List Token) :
    nesting.read groups (ts ++ us) = nesting'.read groups us := by
  rw [read_append, h, ok_bind]

/-- An error is not affected by what follows. -/
theorem read_append_of_error {nesting : Nesting} {ts : List Token} {e : CompileError}
    (h : nesting.read groups ts = .error e) (us : List Token) :
    nesting.read groups (ts ++ us) = .error e := by
  rw [read_append, h, error_bind]

/-- Literals behind a name become its arguments, in order. -/
theorem read_literals {literals : List Token} (h : ∀ token ∈ literals, token.kind = .literal)
    (latest : List Piece) (word : OpenWord) :
    read groups ⟨⟨latest, some word⟩, outer⟩ literals =
      .ok (⟨⟨latest, some ⟨⟨word.atom.name, word.atom.args ++ literals.map Token.text⟩,
        word.offset⟩⟩, outer⟩, []) := by
  induction literals generalizing word with
  | nil => simp [read]
  | cons token literals ih =>
    rw [List.forall_mem_cons] at h
    rw [read_cons_of_some (next_of_literal h.1 latest word), ih h.2]
    simp

/-! ## Separators -/

/-- Reading takes no notice of separators. They may be among the tokens that remain. -/
theorem read_significant (groups : Nat) (nesting : Nesting) (tokens : List Token) :
    nesting.read groups (significant tokens) =
      (nesting.read groups tokens).map fun (nesting, rest) => (nesting, significant rest) := by
  induction tokens generalizing nesting with
  | nil => rfl
  | cons token tokens ih =>
    by_cases hkind : token.kind = .separator
    · rw [Grammar.significant_cons_of_separator hkind, ih,
        read_cons_of_some (next_of_separator hkind nesting)]
    · have hkeep : significant (token :: tokens) = token :: significant tokens :=
        Grammar.significant_cons hkind tokens
      cases hnext : nesting.next groups token with
      | error e => rw [hkeep, read_cons_of_error hnext, read_cons_of_error hnext]; rfl
      | ok next? =>
        cases next? with
        | none =>
          rw [hkeep, read_cons_of_none hnext, read_cons_of_none hnext, ← hkeep]
          rfl
        | some nesting' => rw [hkeep, read_cons_of_some hnext, read_cons_of_some hnext, ih]

/-- What remains after reading starts with a closing bracket that no level was opened for. -/
theorem stray_of_read {nesting nesting' : Nesting} {tokens rest : List Token} {stray : Token}
    (h : nesting.read groups tokens = .ok (nesting', stray :: rest)) :
    stray.kind = .closer ∧ nesting'.outer = [] := by
  induction tokens generalizing nesting with
  | nil => cases h
  | cons token tokens ih =>
    obtain ⟨between, _, hbetween⟩ | ⟨hnext, rfl, hrest⟩ := next_of_read_cons h
    · exact ih hbetween
    · cases hrest
      exact eq_closer_of_next hnext

end Nesting

/-- Separators make no difference to the expression that tokens are, or to what is wrong. -/
theorem parse_significant (tokens : List Token) : parse (significant tokens) = parse tokens := by
  unfold parse readLevel
  rw [Nesting.read_significant]
  cases hread : Nesting.start.read 0 tokens with
  | error e => rfl
  | ok found =>
    obtain ⟨nesting, rest⟩ := found
    cases rest with
    | nil => rfl
    | cons stray rest =>
      have hkeep : significant (stray :: rest) = stray :: significant rest :=
        Grammar.significant_cons (by simp [(Nesting.stray_of_read hread).1]) rest
      simp only [Except.map, ok_bind, hkeep]
      cases nesting.close <;> rfl

end PredicateExpr
