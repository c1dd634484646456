import Mathlib.Data.List.TakeWhile
import PredicateExpr.Token.Seam
import PredicateExpr.Token.Scanner

/-!
# How far a token reaches

Which token stands at the beginning of a text is decided by the characters that it takes up and by
what comes right behind them. `Token.Extent` says this for every kind: a run of characters does not
end before it has to, an operator word has a blank behind it, and a quoted text ends at its second
quote, whatever follows. Just that is read at the beginning of a text
(`Token.first?_eq_some_iff`).
-/

namespace PredicateExpr

open Text

/-! ## Classes of characters that are apart -/

/-- No blank is a decimal digit. -/
theorem Text.isDecimalDigit_of_isBlank {c : Char} (h : isBlank c = true) :
    isDecimalDigit c = false := by
  have hapart : ∀ blank ∈ blanks.ranges, ∀ digits ∈ decimalDigits.ranges,
      blank.2 < digits.1 ∨ digits.2 < blank.1 := by
    decide +kernel
  rw [Bool.eq_false_iff]
  intro hdigit
  obtain ⟨blank, hblank, hle, hge⟩ := CodePoints.contains_iff.mp h
  obtain ⟨digits, hdigits, hle', hge'⟩ := CodePoints.contains_iff.mp hdigit
  have := hapart blank hblank digits hdigits
  omega

namespace Token

open Kind (isOpening isClosing isSeparating isSymbol isNameChar)

/-- No bracket separates tokens. -/
theorem isSeparating_of_bracket {c : Char}
    (h : Kind.isOpening c = true ∨ Kind.isClosing c = true) : isSeparating c = false := by
  have hmem : c ∈ ['(', '[', '\x7b', ')', ']', '\x7d'] := by
    simpa [Kind.isOpening, Kind.isClosing, or_assoc] using h
  simp only [List.mem_cons, List.not_mem_nil, or_false] at hmem
  rcases hmem with rfl | rfl | rfl | rfl | rfl | rfl <;> decide

/-- A symbol begins no token but an operator. -/
theorem begins_of_isSymbol {c : Char} (h : isSymbol c = true) :
    isOpening c = false ∧ isClosing c = false ∧ isSeparating c = false := by
  have hmem : c = '&' ∨ c = '|' ∨ c = '^' ∨ c = '!' := by simpa [isSymbol] using h
  rcases hmem with rfl | rfl | rfl | rfl <;> decide

/-- A character of a name begins no token but a word, save that an operator word may begin with
it. -/
theorem begins_of_isNameChar {c : Char} (h : isNameChar c = true) :
    Kind.isOpening c = false ∧ Kind.isClosing c = false ∧ isSeparating c = false ∧
      Kind.isSymbol c = false ∧ isDecimalDigit c = false ∧ c ≠ '-' ∧ c ≠ '\x27' := by
  have hascii : ∀ code < 128, isNameChar (Char.ofNat code) = true →
      Kind.isOpening (Char.ofNat code) = false ∧ Kind.isClosing (Char.ofNat code) = false ∧
        isSeparating (Char.ofNat code) = false ∧ Kind.isSymbol (Char.ofNat code) = false ∧
          isDecimalDigit (Char.ofNat code) = false ∧ Char.ofNat code ≠ '-' ∧
            Char.ofNat code ≠ '\x27' := by
    decide +kernel
  have hlt : c.toNat < 128 := by
    rw [isNameChar, Bool.or_eq_true, beq_iff_eq] at h
    rcases h with halpha | rfl
    · rcases Bool.or_eq_true_iff.mp halpha with hupper | hlower
      · have hle := (of_decide_eq_true hupper).2
        exact Nat.lt_of_le_of_lt (UInt32.le_iff_toNat_le.mp hle) (by decide)
      · have hle := of_decide_eq_true (Bool.and_eq_true_iff.mp hlower).2
        exact Nat.lt_of_le_of_lt (UInt32.le_iff_toNat_le.mp hle) (by decide)
    · decide
  have hc := hascii c.toNat hlt
  rw [Char.ofNat_toNat] at hc
  exact hc h

/-- A decimal digit begins no token but a number. -/
theorem begins_of_isDecimalDigit {c : Char} (h : isDecimalDigit c = true) :
    isOpening c = false ∧ isClosing c = false ∧ isSeparating c = false ∧ isSymbol c = false ∧
      isNameChar c = false ∧ c ≠ '\x27' := by
  have hnone : ['(', '[', '\x7b', ')', ']', '\x7d', ',', '&', '|', '^', '!', '\x27'].all
      (!isDecimalDigit ·) = true := by decide
  have hne : ∀ d ∈ ['(', '[', '\x7b', ')', ']', '\x7d', ',', '&', '|', '^', '!', '\x27'],
      c ≠ d := by
    rintro d hd rfl
    have hdigit := List.all_eq_true.mp hnone c hd
    rw [h] at hdigit
    cases hdigit
  have hblank : isBlank c = false := by
    rw [Bool.eq_false_iff]
    intro hblank
    rw [isDecimalDigit_of_isBlank hblank] at h
    cases h
  have hname : isNameChar c = false := by
    rw [Bool.eq_false_iff]
    intro hname
    rw [(begins_of_isNameChar hname).2.2.2.2.1] at h
    cases h
  simp only [List.forall_mem_cons] at hne
  simp [isOpening, isClosing, isSeparating, isSymbol, hne, hblank, hname]

/-! ## Runs of characters -/

/-- A stretch of characters of a class that goes on as far as it can in front of a text. -/
structure Run (accepts : Char → Bool) (stretch rest : List Char) : Prop where
  /-- There is a character. -/
  ne : stretch ≠ []
  /-- All of them belong to the class. -/
  all : ∀ c ∈ stretch, accepts c = true
  /-- The next one does not. -/
  stops : rest.head?.any accepts = false

/-- What is read as a run is one, and every run is read. -/
theorem run?_eq_some_iff {accepts : Char → Bool} {cs stretch rest : List Char} :
    run? accepts cs = some (stretch, rest) ↔ stretch ++ rest = cs ∧ Run accepts stretch rest := by
  constructor
  · intro h
    obtain ⟨hne, happend⟩ := append_of_run? h
    unfold run? at h
    split at h
    · cases h
    · cases h
      refine ⟨happend, hne, fun c hc => List.mem_takeWhile_imp hc, ?_⟩
      have hhead := List.head?_dropWhile_not accepts cs
      cases hdrop : cs.dropWhile accepts with
      | nil => rfl
      | cons d behind =>
        rw [hdrop] at hhead
        simpa using hhead
  · rintro ⟨rfl, hne, hall, hstops⟩
    have htake : rest.takeWhile accepts = [] ∧ rest.dropWhile accepts = rest := by
      cases rest with
      | nil => exact ⟨rfl, rfl⟩
      | cons d behind =>
        have hd : accepts d = false := hstops
        simp [hd]
    rw [run?, List.takeWhile_append_of_pos hall, List.dropWhile_append_of_pos hall, htake.1,
      htake.2, List.append_nil]
    split
    · exact absurd rfl hne
    · rfl

/-- No run begins where the first character is none of its class. -/
theorem run?_eq_none_iff {accepts : Char → Bool} {cs : List Char} :
    run? accepts cs = none ↔ cs.head?.any accepts = false := by
  cases cs with
  | nil => simp [run?]
  | cons c cs => cases hc : accepts c <;> simp [run?, hc]

/-- What is read as a single character is one of its class, and each of them is read. -/
theorem single?_eq_some_iff {accepts : Char → Bool} {cs text rest : List Char} :
    single? accepts cs = some (text, rest) ↔
      ∃ c, accepts c = true ∧ text = [c] ∧ c :: rest = cs := by
  constructor
  · intro h
    unfold single? at h
    split at h
    · rename_i c cs
      split at h
      · rename_i hc
        cases h
        exact ⟨c, hc, rfl, rfl⟩
      · cases h
    · cases h
  · rintro ⟨c, hc, rfl, rfl⟩
    exact if_pos hc

/-! ## Numbers -/

/-- Digits with a fraction or without, as far as they go in front of a text. -/
inductive Decimal : (stretch rest : List Char) → Prop
  /-- Digits that no fraction follows. -/
  | whole {digits rest : List Char} : Run isDecimalDigit digits rest →
      (∀ behind, rest = '.' :: behind → behind.head?.any isDecimalDigit = false) →
      Decimal digits rest
  /-- Digits on both sides of a point. -/
  | fraction {digits fraction rest : List Char} : Run isDecimalDigit digits ('.' :: fraction) →
      Run isDecimalDigit fraction rest → Decimal (digits ++ '.' :: fraction) rest

/-- A number without a sign begins with a digit. -/
theorem Decimal.exists_cons {stretch rest : List Char} (h : Decimal stretch rest) :
    ∃ d tail, stretch = d :: tail ∧ isDecimalDigit d = true := by
  cases h with
  | whole hdigits _ =>
    obtain ⟨d, tail, rfl⟩ := List.exists_cons_of_ne_nil hdigits.ne
    exact ⟨d, tail, rfl, hdigits.all d List.mem_cons_self⟩
  | fraction hdigits _ =>
    obtain ⟨d, tail, rfl⟩ := List.exists_cons_of_ne_nil hdigits.ne
    exact ⟨d, _, rfl, hdigits.all d List.mem_cons_self⟩

/-- Digits are read with the fraction that follows them, and as far as they go. -/
theorem decimal?_eq_some_iff {cs stretch rest : List Char} :
    decimal? cs = some (stretch, rest) ↔ stretch ++ rest = cs ∧ Decimal stretch rest := by
  constructor
  · intro h
    obtain ⟨⟨digits, behindDigits⟩, hdigits, heq⟩ := Option.map_eq_some_iff.mp h
    obtain ⟨rfl, hrun⟩ := run?_eq_some_iff.mp hdigits
    dsimp only at heq
    split at heq
    · rename_i behind
      split at heq
      · rename_i hfraction
        cases heq
        obtain ⟨rfl, hrunFraction⟩ := run?_eq_some_iff.mp hfraction
        exact ⟨by simp, .fraction ⟨hrun.ne, hrun.all, hrun.stops⟩ hrunFraction⟩
      · rename_i hnone
        cases heq
        refine ⟨rfl, .whole hrun ?_⟩
        rintro _ ⟨⟩
        exact run?_eq_none_iff.mp hnone
    · rename_i hpoint
      cases heq
      exact ⟨rfl, .whole hrun fun behind hbehind => (hpoint behind hbehind).elim⟩
  · rintro ⟨rfl, hdecimal⟩
    cases hdecimal with
    | whole hrun hpoint =>
      rw [decimal?, run?_eq_some_iff.mpr ⟨rfl, hrun⟩, Option.map_some]
      dsimp only
      split
      · rw [run?_eq_none_iff.mpr (hpoint _ rfl)]
      · rfl
    | @fraction digits fraction _ hrun hrunFraction =>
      have hdigits : Run isDecimalDigit digits ('.' :: (fraction ++ rest)) :=
        ⟨hrun.ne, hrun.all, hrun.stops⟩
      have hfraction := run?_eq_some_iff.mpr ⟨rfl, hrunFraction⟩
      rw [List.append_assoc, List.cons_append, decimal?, run?_eq_some_iff.mpr ⟨rfl, hdigits⟩,
        Option.map_some]
      simp only [hfraction]

/-- A number is read as far as its digits and their fraction go, with a dash in front or without. -/
theorem number?_eq_some_iff {cs stretch rest : List Char} :
    number? cs = some (stretch, rest) ↔ stretch ++ rest = cs ∧
      (Decimal stretch rest ∨ ∃ digits, stretch = '-' :: digits ∧ Decimal digits rest) := by
  constructor
  · intro h
    unfold number? at h
    split at h
    · obtain ⟨⟨digits, behind⟩, hdigits, heq⟩ := Option.map_eq_some_iff.mp h
      cases heq
      obtain ⟨rfl, hdecimal⟩ := decimal?_eq_some_iff.mp hdigits
      exact ⟨rfl, .inr ⟨digits, rfl, hdecimal⟩⟩
    · obtain ⟨rfl, hdecimal⟩ := decimal?_eq_some_iff.mp h
      exact ⟨rfl, .inl hdecimal⟩
  · rintro ⟨rfl, hdecimal | ⟨digits, rfl, hdecimal⟩⟩
    · obtain ⟨d, tail, rfl, hd⟩ := hdecimal.exists_cons
      have hread := decimal?_eq_some_iff.mpr ⟨rfl, hdecimal⟩
      rw [List.cons_append] at hread ⊢
      rw [number?, hread]
      rintro cs heq
      rw [(List.cons.inj heq).1] at hd
      exact absurd hd (by decide)
    · rw [List.cons_append, number?, decimal?_eq_some_iff.mpr ⟨rfl, hdecimal⟩]
      rfl

/-! ## Operator words -/

/-- What follows a word is read exactly where the word begins the text. -/
theorem afterWord?_eq_some_iff {word cs rest : List Char} :
    afterWord? word cs = some rest ↔ word ++ rest = cs := by
  refine ⟨append_of_afterWord?, ?_⟩
  rintro rfl
  induction word with
  | nil => rfl
  | cons c word ih => rw [List.cons_append, afterWord?, if_pos rfl, ih]

/-- A word is read in front of a blank exactly where both begin the text. -/
theorem wordBeforeBlank?_eq_some_iff {word cs text rest : List Char} :
    wordBeforeBlank? word cs = some (text, rest) ↔
      text = word ∧ word ++ rest = cs ∧ rest.head?.any isBlank = true := by
  rw [wordBeforeBlank?, Option.bind_eq_some_iff]
  constructor
  · rintro ⟨behind, hafter, hblank⟩
    split at hblank
    · rename_i hhead
      cases hblank
      exact ⟨rfl, afterWord?_eq_some_iff.mp hafter, hhead⟩
    · cases hblank
  · rintro ⟨rfl, happend, hhead⟩
    exact ⟨rest, afterWord?_eq_some_iff.mpr happend, if_pos hhead⟩

/-- An operator word consists of characters of names and ends where they do. -/
theorem run_of_operatorWords {stretch rest : List Char}
    (hword : String.ofList stretch ∈ operatorWords) (hblank : rest.head?.any isBlank = true) :
    Run isNameChar stretch rest := by
  have hall : ∀ word ∈ operatorWords, word.toList ≠ [] ∧
      word.toList.all isNameChar = true := by decide
  obtain ⟨hne, hname⟩ := hall _ hword
  rw [String.toList_ofList] at hne hname
  refine ⟨hne, List.all_eq_true.mp hname, ?_⟩
  cases rest with
  | nil => rfl
  | cons c rest =>
    rw [List.head?_cons, Option.any_some, Bool.eq_false_iff]
    intro hc
    have hseparating := (begins_of_isNameChar hc).2.2.1
    have hblank : isBlank c = true := hblank
    rw [isSeparating, hblank] at hseparating
    cases hseparating

/-- An operator word is read exactly where one begins the text, with a blank behind it. -/
theorem operatorWord?_eq_some_iff {cs stretch rest : List Char} :
    operatorWord? cs = some (stretch, rest) ↔ stretch ++ rest = cs ∧
      String.ofList stretch ∈ operatorWords ∧ rest.head?.any isBlank = true := by
  have hread : ∀ {stretch rest : List Char}, operatorWord? cs = some (stretch, rest) →
      stretch ++ rest = cs ∧ String.ofList stretch ∈ operatorWords ∧
        rest.head?.any isBlank = true := by
    intro stretch rest h
    obtain ⟨word, hmem, hword⟩ := List.exists_of_findSome?_eq_some h
    obtain ⟨rfl, happend, hblank⟩ := wordBeforeBlank?_eq_some_iff.mp hword
    exact ⟨happend, by rwa [String.ofList_toList], hblank⟩
  refine ⟨hread, ?_⟩
  rintro ⟨happend, hword, hblank⟩
  -- some word is found, and no other word ends where the run of letters does
  have hsome : (operatorWord? cs).isSome = true := by
    rw [operatorWord?, List.findSome?_isSome_iff]
    refine ⟨_, hword, ?_⟩
    rw [String.toList_ofList,
      wordBeforeBlank?_eq_some_iff.mpr ⟨rfl, happend, hblank⟩]
    rfl
  obtain ⟨⟨stretch', rest'⟩, hfound⟩ := Option.isSome_iff_exists.mp hsome
  obtain ⟨happend', hword', hblank'⟩ := hread hfound
  have hrun := run?_eq_some_iff.mpr ⟨happend, run_of_operatorWords hword hblank⟩
  have hrun' := run?_eq_some_iff.mpr ⟨happend', run_of_operatorWords hword' hblank'⟩
  rw [hfound, ← hrun', hrun]

/-- A name that is no operator word, or that no blank follows, is no operator. -/
theorem operatorWord?_eq_none {stretch rest : List Char} (h : Run isNameChar stretch rest)
    (hword : ¬(String.ofList stretch ∈ operatorWords ∧ rest.head?.any isBlank = true)) :
    operatorWord? (stretch ++ rest) = none := by
  cases hfound : operatorWord? (stretch ++ rest) with
  | none => rfl
  | some found =>
    obtain ⟨stretch', rest'⟩ := found
    obtain ⟨happend, hword', hblank⟩ := operatorWord?_eq_some_iff.mp hfound
    have hrun := run?_eq_some_iff.mpr ⟨rfl, h⟩
    have hrun' := run?_eq_some_iff.mpr ⟨happend, run_of_operatorWords hword' hblank⟩
    rw [hrun] at hrun'
    cases hrun'
    exact absurd ⟨hword', hblank⟩ hword

/-! ## The kind of the first token -/

/-- The token at the beginning of a text is of the first kind that has one there. -/
theorem first?_of_kind {kind : Kind} {cs text rest : List Char} (before : List Kind)
    {after : List Kind} (hall : Kind.all = before ++ kind :: after)
    (hbefore : ∀ other ∈ before, other.first? cs = none) (h : kind.first? cs = some (text, rest)) :
    first? cs = some (kind, text, rest) := by
  have hnone : before.findSome? (fun other => (other.first? cs).map (other, ·)) = none := by
    rw [List.findSome?_eq_none_iff]
    intro other hmem
    rw [hbefore other hmem, Option.map_none]
  rw [first?, hall, List.findSome?_append, hnone, Option.none_or, List.findSome?_cons, h,
    Option.map_some]

/-- No operator symbol is read where the first character is none. -/
theorem symbol?_eq_none {c : Char} (h : isSymbol c = false) (cs : List Char) :
    symbol? (c :: cs) = none := by
  rw [symbol?, h]
  · rfl
  · rintro cs rfl
    exact absurd h (by decide)

/-- No operator word is read where the first character is none of a name. -/
theorem operatorWord?_eq_none_of_head {c : Char} (h : isNameChar c = false) (cs : List Char) :
    operatorWord? (c :: cs) = none := by
  cases hfound : operatorWord? (c :: cs) with
  | none => rfl
  | some found =>
    obtain ⟨happend, hword, hblank⟩ := operatorWord?_eq_some_iff.mp hfound
    have hrun := run?_eq_some_iff.mpr ⟨happend, run_of_operatorWords hword hblank⟩
    have hnone : run? isNameChar (c :: cs) = none := run?_eq_none_iff.mpr h
    rw [hnone] at hrun
    cases hrun

/-- No quoted text is read without a quote in front. -/
theorem quoted?_eq_none {c : Char} (h : c ≠ '\x27') (cs : List Char) :
    quoted? (c :: cs) = none := by
  rw [quoted?]
  rintro cs heq
  exact h (List.cons.inj heq).1

/-- No number is read without a dash or a digit in front. -/
theorem number?_eq_none {c : Char} (hdash : c ≠ '-') (hdigit : isDecimalDigit c = false)
    (cs : List Char) : number? (c :: cs) = none := by
  rw [number?]
  · simp [decimal?, run?, hdigit]
  · rintro cs heq
    exact hdash (List.cons.inj heq).1

/-- An operator symbol is read alone, unless it is the first half of the one of two characters. -/
theorem symbol?_of_isSymbol {c : Char} {cs : List Char} (h : isSymbol c = true)
    (hunequal : c = '!' → cs.head? ≠ some '=') : symbol? (c :: cs) = some ([c], cs) := by
  rw [symbol?, if_pos h]
  rintro behind rfl rfl
  exact hunequal rfl rfl

/-- A quoted text is read up to its second quote. -/
theorem quoted?_append {text : List Char} (h : '\x27' ∉ text) (rest : List Char) :
    quoted? ('\x27' :: (text ++ '\x27' :: rest)) = some (text, rest) := by
  have hother : ∀ c ∈ text, (c != '\x27') = true := by
    intro c hc
    simpa using ne_of_mem_of_not_mem hc h
  rw [quoted?, List.dropWhile_append_of_pos hother, List.takeWhile_append_of_pos hother]
  simp

/-- There is no single quote in a quoted text. -/
theorem not_mem_of_quoted? {cs text rest : List Char} (h : quoted? cs = some (text, rest)) :
    '\x27' ∉ text := by
  unfold quoted? at h
  split at h
  · split at h
    · cases h
    · cases h
      intro hc
      exact absurd (List.mem_takeWhile_imp hc) (by decide)
  · cases h

/-- An operator that begins with a character of no kind before is the first token. -/
theorem first?_of_operator {c : Char} {cs text rest : List Char}
    (hc : isOpening c = false ∧ isClosing c = false ∧ isSeparating c = false)
    (h : Kind.operator.first? (c :: cs) = some (text, rest)) :
    first? (c :: cs) = some (.operator, text, rest) := by
  obtain ⟨hopening, hclosing, hseparating⟩ := hc
  refine first?_of_kind [.opener, .closer, .separator] rfl ?_ h
  simp [Kind.first?, single?, run?, hopening, hclosing, hseparating]

/-- A literal that begins with a character of no kind before is the first token. -/
theorem first?_of_literal {c : Char} {cs text rest : List Char}
    (hc : isOpening c = false ∧ isClosing c = false ∧ isSeparating c = false ∧
      isSymbol c = false ∧ isNameChar c = false)
    (h : Kind.literal.first? (c :: cs) = some (text, rest)) :
    first? (c :: cs) = some (.literal, text, rest) := by
  obtain ⟨hopening, hclosing, hseparating, hsymbol, hname⟩ := hc
  refine first?_of_kind [.opener, .closer, .separator, .operator] rfl ?_ h
  simp [Kind.first?, single?, run?, hopening, hclosing, hseparating, symbol?_eq_none hsymbol,
    operatorWord?_eq_none_of_head hname]

/-! ## Extents -/

/-- A stretch that is read in front of a text as a token of some kind, with the text that the token
then has. -/
inductive Extent : Kind → (stretch text rest : List Char) → Prop
  | opener {c : Char} {rest : List Char} : isOpening c = true → Extent .opener [c] [c] rest
  | closer {c : Char} {rest : List Char} : isClosing c = true → Extent .closer [c] [c] rest
  | separator {stretch rest : List Char} : Run isSeparating stretch rest →
      Extent .separator stretch stretch rest
  /-- The symbol of two characters. -/
  | unequal {rest : List Char} : Extent .operator ['!', '='] ['!', '='] rest
  /-- A symbol of one character, if it does not begin the one of two. -/
  | symbol {c : Char} {rest : List Char} : isSymbol c = true →
      (c = '!' → rest.head? ≠ some '=') → Extent .operator [c] [c] rest
  | operatorWord {stretch rest : List Char} : String.ofList stretch ∈ operatorWords →
      rest.head?.any isBlank = true → Extent .operator stretch stretch rest
  | quoted {text rest : List Char} : '\x27' ∉ text →
      Extent .literal ('\x27' :: text ++ ['\x27']) text rest
  | number {digits rest : List Char} : Decimal digits rest → Extent .literal digits digits rest
  | negative {digits rest : List Char} : Decimal digits rest →
      Extent .literal ('-' :: digits) ('-' :: digits) rest
  | word {stretch rest : List Char} : Run isNameChar stretch rest →
      ¬(String.ofList stretch ∈ operatorWords ∧ rest.head?.any isBlank = true) →
      Extent .word stretch stretch rest

/-- Every token takes up a character. -/
theorem Extent.ne_nil {kind : Kind} {stretch text rest : List Char}
    (h : Extent kind stretch text rest) : stretch ≠ [] := by
  cases h with
  | separator hrun => exact hrun.ne
  | operatorWord hword hblank => exact (run_of_operatorWords hword hblank).ne
  | number hdecimal =>
    obtain ⟨d, tail, rfl, _⟩ := hdecimal.exists_cons
    exact List.cons_ne_nil _ _
  | word hrun _ => exact hrun.ne
  | _ => exact List.cons_ne_nil _ _

/-- A token is read where the text has its extent, whatever stands further on. -/
theorem Extent.first?_eq {kind : Kind} {stretch text rest : List Char}
    (h : Extent kind stretch text rest) : first? (stretch ++ rest) = some (kind, text, rest) := by
  cases h with
  | opener hc =>
    refine first?_of_kind [] rfl (by simp) ?_
    exact single?_eq_some_iff.mpr ⟨_, hc, rfl, rfl⟩
  | @closer c _ hc =>
    have hmem : c = ')' ∨ c = ']' ∨ c = '\x7d' := by simpa [isClosing] using hc
    rcases hmem with rfl | rfl | rfl <;> rfl
  | separator hrun =>
    have hread := run?_eq_some_iff.mpr ⟨rfl, hrun⟩
    obtain ⟨c, tail, rfl⟩ := List.exists_cons_of_ne_nil hrun.ne
    have hc := hrun.all c List.mem_cons_self
    have hbracket : ¬(isOpening c = true ∨ isClosing c = true) := by
      intro hbracket
      rw [isSeparating_of_bracket hbracket] at hc
      cases hc
    refine first?_of_kind [.opener, .closer] rfl ?_ hread
    simpa [Kind.first?, single?] using hbracket
  | unequal => rfl
  | symbol hc hunequal =>
    rw [List.singleton_append]
    refine first?_of_operator (begins_of_isSymbol hc) ?_
    rw [Kind.first?, symbol?_of_isSymbol hc hunequal, Option.some_or]
  | operatorWord hword hblank =>
    have hread := operatorWord?_eq_some_iff.mpr ⟨rfl, hword, hblank⟩
    have hrun := run_of_operatorWords hword hblank
    obtain ⟨c, tail, rfl⟩ := List.exists_cons_of_ne_nil hrun.ne
    obtain ⟨hopening, hclosing, hseparating, hsymbol, _⟩ :=
      begins_of_isNameChar (hrun.all c List.mem_cons_self)
    rw [List.cons_append] at hread ⊢
    refine first?_of_operator ⟨hopening, hclosing, hseparating⟩ ?_
    rw [Kind.first?, symbol?_eq_none hsymbol, hread, Option.none_or]
  | @quoted text _ hquote =>
    rw [List.cons_append, List.cons_append, List.append_assoc, List.singleton_append]
    refine first?_of_literal (by decide) ?_
    rw [Kind.first?, quoted?_append hquote, Option.some_or]
  | number hdecimal =>
    have hread := number?_eq_some_iff.mpr ⟨rfl, .inl hdecimal⟩
    obtain ⟨d, tail, rfl, hd⟩ := hdecimal.exists_cons
    obtain ⟨hopening, hclosing, hseparating, hsymbol, hname, hquote⟩ := begins_of_isDecimalDigit hd
    rw [List.cons_append] at hread ⊢
    refine first?_of_literal ⟨hopening, hclosing, hseparating, hsymbol, hname⟩ ?_
    rw [Kind.first?, quoted?_eq_none hquote, hread, Option.none_or]
  | @negative digits _ hdecimal =>
    have hread := number?_eq_some_iff.mpr ⟨rfl, .inr ⟨digits, rfl, hdecimal⟩⟩
    rw [List.cons_append] at hread ⊢
    refine first?_of_literal (by decide) ?_
    rw [Kind.first?, quoted?_eq_none (by decide), hread, Option.none_or]
  | word hrun hword =>
    have hread := run?_eq_some_iff.mpr ⟨rfl, hrun⟩
    have hoperator := operatorWord?_eq_none hrun hword
    obtain ⟨c, tail, rfl⟩ := List.exists_cons_of_ne_nil hrun.ne
    obtain ⟨hopening, hclosing, hseparating, hsymbol, hdigit, hdash, hquote⟩ :=
      begins_of_isNameChar (hrun.all c List.mem_cons_self)
    rw [List.cons_append] at hread hoperator ⊢
    refine first?_of_kind [.opener, .closer, .separator, .operator, .literal] rfl ?_ hread
    simp [Kind.first?, single?, run?, hopening, hclosing, hseparating, symbol?_eq_none hsymbol,
      hoperator, quoted?_eq_none hquote, number?_eq_none hdash hdigit]

/-- An operator symbol that is read has its extent there. -/
theorem extent_of_symbol? {cs text rest : List Char} (h : symbol? cs = some (text, rest)) :
    text ++ rest = cs ∧ Extent .operator text text rest := by
  unfold symbol? at h
  split at h
  · cases h
    exact ⟨rfl, .unequal⟩
  · rename_i c cs hunequal
    split at h
    · rename_i hc
      cases h
      refine ⟨rfl, .symbol hc ?_⟩
      rintro rfl hhead
      obtain ⟨behind, rfl⟩ := List.head?_eq_some_iff.mp hhead
      exact hunequal behind rfl rfl
    · cases h
  · cases h

/-- What is read at the beginning of a text is a token of some extent. -/
theorem first?_eq_some_iff {kind : Kind} {cs text rest : List Char} :
    first? cs = some (kind, text, rest) ↔
      ∃ stretch, stretch ++ rest = cs ∧ Extent kind stretch text rest := by
  refine ⟨?_, ?_⟩
  · intro h
    have hread := Kind.first?_of_first? h
    cases kind with
    | opener =>
      obtain ⟨c, hc, rfl, rfl⟩ := single?_eq_some_iff.mp hread
      exact ⟨[c], rfl, .opener hc⟩
    | closer =>
      obtain ⟨c, hc, rfl, rfl⟩ := single?_eq_some_iff.mp hread
      exact ⟨[c], rfl, .closer hc⟩
    | separator =>
      obtain ⟨happend, hrun⟩ := run?_eq_some_iff.mp hread
      exact ⟨text, happend, .separator hrun⟩
    | operator =>
      rcases Option.or_eq_some_iff.mp hread with hsymbol | ⟨_, hword⟩
      · exact ⟨text, extent_of_symbol? hsymbol⟩
      · obtain ⟨happend, hmem, hblank⟩ := operatorWord?_eq_some_iff.mp hword
        exact ⟨text, happend, .operatorWord hmem hblank⟩
    | literal =>
      rcases Option.or_eq_some_iff.mp hread with hquoted | ⟨_, hnumber⟩
      · refine ⟨'\x27' :: text ++ ['\x27'], ?_, .quoted (not_mem_of_quoted? hquoted)⟩
        simpa using append_of_quoted? hquoted
      · obtain ⟨happend, hdecimal | ⟨digits, rfl, hdecimal⟩⟩ := number?_eq_some_iff.mp hnumber
        · exact ⟨text, happend, .number hdecimal⟩
        · exact ⟨_, happend, .negative hdecimal⟩
    | word =>
      obtain ⟨happend, hrun⟩ := run?_eq_some_iff.mp hread
      refine ⟨text, happend, .word hrun ?_⟩
      -- an operator would have been read before the word
      rintro ⟨hmem, hblank⟩
      have hoperator := (Extent.operatorWord hmem hblank).first?_eq
      rw [happend, h] at hoperator
      cases hoperator
  · rintro ⟨stretch, rfl, h⟩
    exact h.first?_eq

end Token

end PredicateExpr
