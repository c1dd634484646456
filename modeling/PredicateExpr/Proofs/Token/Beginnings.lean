import PredicateExpr.Proofs.Token.Extents
import PredicateExpr.Tree.Source

/-!
# The token at the beginning of a text

What a token begins with tells it from tokens of other kinds. A bracket, a symbol, a comma and a
quoted text are known by their first character; a name is known by what follows it, because names
may be spelled like operators. The other way round, the text of a word can be written as a name and
that of a literal between quotes (`writable_of_leftToRightFrom`).
-/

namespace PredicateExpr

open Text

/-- Nothing is dropped where the first character is none of the class. -/
theorem Text.dropWhile_of_head? {p : Char → Bool} {cs : List Char}
    (h : cs.head?.any p = false) : cs.dropWhile p = cs := by
  cases cs with
  | nil => rfl
  | cons c cs =>
    rw [List.head?_cons, Option.any_some] at h
    exact List.dropWhile_cons_of_neg (by simp [h])

namespace Token

open Kind (isNameChar isSeparating)

/-! ## Brackets, symbols, separators and quoted texts -/

theorem first?_opening (rest : List Char) : first? ('(' :: rest) = some (.opener, ['('], rest) :=
  rfl

theorem first?_closing (rest : List Char) : first? (')' :: rest) = some (.closer, [')'], rest) :=
  rfl

/-- A negation in front of a bracket. -/
theorem first?_bang (rest : List Char) :
    first? ('!' :: '(' :: rest) = some (.operator, ['!'], '(' :: rest) :=
  rfl

/-- A connective in front of a bracket. -/
theorem first?_symbol (c : Connective) (rest : List Char) :
    first? (c.symbol :: '(' :: rest) = some (.operator, [c.symbol], '(' :: rest) := by
  cases c <;> rfl

/-- Where a separator comes first, all separators there are taken together. -/
theorem first?_separating {c : Char} (hc : isSeparating c = true) (cs : List Char) :
    first? (c :: cs) =
      some (.separator, c :: cs.takeWhile isSeparating, cs.dropWhile isSeparating) := by
  have hread : run? isSeparating (c :: cs) =
      some (c :: cs.takeWhile isSeparating, cs.dropWhile isSeparating) := by
    rw [run?, List.takeWhile_cons_of_pos hc, List.dropWhile_cons_of_pos hc]
  obtain ⟨happend, hrun⟩ := run?_eq_some_iff.mp hread
  exact first?_eq_some_iff.mpr ⟨_, happend, .separator hrun⟩

/-- A comma stands alone where no separator follows. -/
theorem first?_comma {rest : List Char} (h : rest.head?.any isSeparating = false) :
    first? (',' :: rest) = some (.separator, [','], rest) := by
  have hcomma : ∀ c ∈ [','], isSeparating c = true := List.forall_mem_singleton.mpr (by decide)
  exact (Extent.separator ⟨by simp, hcomma, h⟩).first?_eq

/-- A quoted text ends at its second quote. -/
theorem first?_quoted {arg : List Char} (h : '\x27' ∉ arg) (rest : List Char) :
    first? ('\x27' :: arg ++ '\x27' :: rest) = some (.literal, arg, rest) := by
  have hextent : Extent .literal ('\x27' :: arg ++ ['\x27']) arg rest := .quoted h
  have hread := hextent.first?_eq
  rwa [List.append_assoc] at hread

/-- A name in front of a comma is a word, whatever its spelling. -/
theorem first?_name {name : List Char} (hne : name ≠ [])
    (hname : ∀ c ∈ name, isNameChar c = true) (behind : List Char) :
    first? (name ++ ',' :: behind) = some (.word, name, ',' :: behind) := by
  have hcomma : isNameChar ',' = false ∧ isBlank ',' = false := by decide
  have hrun : Run isNameChar name (',' :: behind) := ⟨hne, hname, hcomma.1⟩
  refine (Extent.word hrun ?_).first?_eq
  simp [hcomma.2]

/-! ## What tokens hold -/

/-- There is no single quote among digits. -/
theorem Decimal.not_mem {stretch rest : List Char} (h : Decimal stretch rest) :
    '\x27' ∉ stretch := by
  have hdigits : ∀ {digits rest : List Char}, Run isDecimalDigit digits rest →
      '\x27' ∉ digits := by
    intro digits rest hrun hc
    exact absurd (hrun.all _ hc) (by decide)
  cases h with
  | whole hwhole _ => exact hdigits hwhole
  | fraction hwhole hfraction => simp [hdigits hwhole, hdigits hfraction]

/-- There is no single quote in a number. -/
theorem not_mem_of_number? {cs text rest : List Char} (h : number? cs = some (text, rest)) :
    '\x27' ∉ text := by
  obtain ⟨_, hdecimal | ⟨digits, rfl, hdecimal⟩⟩ := number?_eq_some_iff.mp h
  · exact hdecimal.not_mem
  · simp [hdecimal.not_mem]

/-- A token whose text can be written: as a name for a word, between quotes for a literal. -/
structure Writable (token : Token) : Prop where
  /-- The text of a word is a name. -/
  name : token.kind = .word → Atom.NameWritable token.text
  /-- The text of a literal can be quoted. -/
  arg : token.kind = .literal → Atom.ArgWritable token.text

/-- The token that a text begins with can be written. -/
theorem writable_of_first? {kind : Kind} {cs text rest : List Char}
    (h : first? cs = some (kind, text, rest)) (offset : Nat) :
    Writable ⟨kind, String.ofList text, offset⟩ := by
  have hkind := Kind.first?_of_first? h
  constructor
  · rintro rfl
    refine ⟨?_, ?_⟩
    · have hne := (append_of_run? hkind).1
      simpa [← String.toList_inj] using hne
    · rw [String.toList_ofList]
      exact (run?_eq_some_iff.mp hkind).2.all
  · rintro rfl
    rw [Atom.ArgWritable, String.toList_ofList]
    rcases Option.or_eq_some_iff.mp hkind with hquoted | ⟨_, hnumber⟩
    · exact not_mem_of_quoted? hquoted
    · exact not_mem_of_number? hnumber

end Token

/-- All tokens of a text can be written. -/
theorem writable_of_leftToRightFrom {offset : Nat} {cs : List Char} {tokens : List Token}
    (h : leftToRightFrom offset cs = .ok tokens) : ∀ token ∈ tokens, token.Writable := by
  fun_induction leftToRightFrom offset cs generalizing tokens with
  | case1 offset =>
    cases h
    simp
  | case2 => cases h
  | case3 offset cs hne kind text rest hfirst ih =>
    cases hrest : leftToRightFrom (offset + (utf8Size cs - utf8Size rest)) rest with
    | error stop =>
      rw [hrest] at h
      cases h
    | ok following =>
      rw [hrest] at h
      cases h
      split
      · exact ih hrest
      · rw [List.forall_mem_cons]
        exact ⟨Token.writable_of_first? hfirst offset, ih hrest⟩

end PredicateExpr
