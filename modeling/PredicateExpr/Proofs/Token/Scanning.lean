import PredicateExpr.Proofs.Token.Extents
import PredicateExpr.Proofs.Token.LeftToRight

/-!
# Scans of texts that are put together

A token keeps its extent in front of another text if that text begins with the same character
(`Token.Extent.of_head?_eq`) or with a blank, where only a word spelled like an operator changes
(`Token.Extent.before_blank`). A scan goes from one extent to the next (`scanFrom_of_extent`),
passes over any separators (`scanFrom_separators`), and finds the same things wherever the text
starts (`scanFrom_add`).
-/

namespace PredicateExpr

open Text
open Token.Kind (isSeparating isNameChar)

namespace Token

/-! ## Extents in front of other texts -/

section

variable {accepts : Char → Bool} {kind : Kind} {stretch text rest rest' : List Char}

/-- A run stays one in front of a text with the same first character. -/
theorem Run.of_head?_eq (h : Run accepts stretch rest) (hhead : rest'.head? = rest.head?) :
    Run accepts stretch rest' :=
  ⟨h.ne, h.all, by rw [hhead, h.stops]⟩

/-- A number goes on behind a point only, so that one character decides whether it does. -/
theorem Decimal.of_head?_eq (h : Decimal stretch rest) (hhead : rest'.head? = rest.head?)
    (hpoint : rest.head? ≠ some '.') : Decimal stretch rest' := by
  cases h with
  | whole hdigits _ =>
    refine .whole (hdigits.of_head?_eq hhead) ?_
    rintro behind rfl
    exact absurd hhead.symm hpoint
  | fraction hdigits hfraction => exact .fraction hdigits (hfraction.of_head?_eq hhead)

/-- A token keeps its extent in front of a text with the same first character. -/
theorem Extent.of_head?_eq (h : Extent kind stretch text rest) (hhead : rest'.head? = rest.head?)
    (hpoint : rest.head? ≠ some '.') : Extent kind stretch text rest' := by
  cases h with
  | opener hc => exact .opener hc
  | closer hc => exact .closer hc
  | separator hrun => exact .separator (hrun.of_head?_eq hhead)
  | unequal => exact .unequal
  | symbol hc hequal => exact .symbol hc (by rwa [hhead])
  | operatorWord hword hblank => exact .operatorWord hword (by rwa [hhead])
  | quoted hquote => exact .quoted hquote
  | number hdecimal => exact .number (hdecimal.of_head?_eq hhead hpoint)
  | negative hdecimal => exact .negative (hdecimal.of_head?_eq hhead hpoint)
  | word hrun hword => exact .word (hrun.of_head?_eq hhead) (by rwa [hhead])

/-- Digits and their fraction end in front of a blank where they ended before. -/
theorem Decimal.before_blank {b : Char} (h : Decimal stretch rest) (hb : isBlank b = true)
    (behind : List Char) : Decimal stretch (b :: behind) := by
  have hdigit : isDecimalDigit b = false := isDecimalDigit_of_isBlank hb
  cases h with
  | whole hdigits _ =>
    refine .whole ⟨hdigits.ne, hdigits.all, hdigit⟩ ?_
    rintro _ ⟨⟩
    exact absurd hb (by decide)
  | fraction hdigits hfraction =>
    exact .fraction hdigits ⟨hfraction.ne, hfraction.all, hdigit⟩

/-- In front of a blank a token ends where it ended before. A word becomes an operator there, if it
is spelled like one. -/
theorem Extent.before_blank {b : Char} (h : Extent kind stretch text rest)
    (hkind : kind ≠ .separator) (hb : isBlank b = true) (behind : List Char) :
    Extent (if kind = .word ∧ String.ofList text ∈ operatorWords then .operator else kind)
      stretch text (b :: behind) := by
  cases h with
  | opener hc => exact .opener hc
  | closer hc => exact .closer hc
  | separator _ => exact absurd rfl hkind
  | unequal => exact .unequal
  | symbol hc _ =>
    refine .symbol hc ?_
    rintro - ⟨⟩
    exact absurd hb (by decide)
  | operatorWord hword _ => exact .operatorWord hword hb
  | quoted hquote => exact .quoted hquote
  | number hdecimal => exact .number (hdecimal.before_blank hb behind)
  | negative hdecimal => exact .negative (hdecimal.before_blank hb behind)
  | word hrun _ =>
    by_cases hword : String.ofList stretch ∈ operatorWords
    · rw [if_pos ⟨rfl, hword⟩]
      exact .operatorWord hword hb
    · have hname : isNameChar b = false := by
        rw [Bool.eq_false_iff]
        intro hname
        have hseparating := (begins_of_isNameChar hname).2.2.1
        rw [isSeparating, hb] at hseparating
        cases hseparating
      rw [if_neg fun h => hword h.2]
      exact .word ⟨hrun.ne, hrun.all, hname⟩ fun h => hword h.1

/-! ## Last characters -/

/-- The last character of a run is one of its class. -/
theorem Run.exists_last (h : Run accepts stretch rest) :
    ∃ c, stretch.getLast? = some c ∧ accepts c = true := by
  refine ⟨stretch.getLast h.ne, List.getLast?_eq_some_getLast h.ne, ?_⟩
  exact h.all _ (List.getLast_mem h.ne)

/-- With a fraction or without, the last character is a digit. -/
theorem Decimal.exists_last (h : Decimal stretch rest) :
    ∃ c, stretch.getLast? = some c ∧ isDecimalDigit c = true := by
  cases h with
  | whole hdigits _ => exact hdigits.exists_last
  | fraction _ hfraction =>
    obtain ⟨c, hlast, hc⟩ := hfraction.exists_last
    exact ⟨c, by simp [List.getLast?_cons, hlast], hc⟩

/-- No token but a separator ends in one. -/
theorem Extent.exists_last (h : Extent kind stretch text rest) (hkind : kind ≠ .separator) :
    ∃ c, stretch.getLast? = some c ∧ isSeparating c = false := by
  cases h with
  | @opener c _ hc => exact ⟨c, rfl, isSeparating_of_bracket (.inl hc)⟩
  | @closer c _ hc => exact ⟨c, rfl, isSeparating_of_bracket (.inr hc)⟩
  | separator _ => exact absurd rfl hkind
  | unequal => exact ⟨'=', rfl, by decide⟩
  | @symbol c _ hc _ => exact ⟨c, rfl, (begins_of_isSymbol hc).2.2⟩
  | operatorWord hword hblank =>
    obtain ⟨c, hlast, hc⟩ := (run_of_operatorWords hword hblank).exists_last
    exact ⟨c, hlast, (begins_of_isNameChar hc).2.2.1⟩
  | quoted _ => exact ⟨'\x27', List.getLast?_concat, by decide⟩
  | number hdecimal =>
    obtain ⟨c, hlast, hc⟩ := hdecimal.exists_last
    exact ⟨c, hlast, (begins_of_isDecimalDigit hc).2.2.1⟩
  | negative hdecimal =>
    obtain ⟨c, hlast, hc⟩ := hdecimal.exists_last
    exact ⟨c, by simp [List.getLast?_cons, hlast], (begins_of_isDecimalDigit hc).2.2.1⟩
  | word hrun _ =>
    obtain ⟨c, hlast, hc⟩ := hrun.exists_last
    exact ⟨c, hlast, (begins_of_isNameChar hc).2.2.1⟩

/-! ## The closest match and extents -/

/-- A closest match at the beginning has the extent of a token. -/
theorem extent_of_closest? {cs : List Char} {found : Pattern.Match}
    (h : closest? cs = some (kind, found)) (hhere : found.skipped = []) :
    Extent kind found.text (kind.textOf found.text) found.rest ∧ found.text ++ found.rest = cs := by
  obtain ⟨hfirst, happend⟩ := first?_of_closest? h hhere
  obtain ⟨stretch, hstretch, hextent⟩ := first?_eq_some_iff.mp hfirst
  obtain rfl : stretch = found.text := List.append_cancel_right (hstretch.trans happend.symm)
  exact ⟨hextent, happend⟩

/-- Where a token has its extent, it is the closest match. -/
theorem Extent.closest?_eq (h : Extent kind stretch text rest) :
    closest? (stretch ++ rest) = some (kind, ⟨[], stretch, rest⟩) := by
  have hread := readHere?_closest? (stretch ++ rest)
  rw [h.first?_eq] at hread
  unfold readHere? at hread
  split at hread
  · rename_i found hclosest
    cases hread
    obtain rfl := List.append_cancel_right (extent_of_closest? hclosest rfl).2
    exact hclosest
  · cases hread

/-- The text of a token is read off its extent. -/
theorem Extent.textOf_eq (h : Extent kind stretch text rest) : kind.textOf stretch = text := by
  have hfirst := (first?_of_closest? h.closest?_eq rfl).1
  rw [h.first?_eq] at hfirst
  cases hfirst
  rfl

end

end Token

/-! ## Scanning -/

theorem scanFrom_nil (offset : Nat) : scanFrom offset [] = ⟨[], none⟩ := by
  rw [scanFrom, if_pos rfl]

/-- Where something is left, a scan goes on by the closest match. -/
theorem scanFrom_of_ne {cs : List Char} (hne : cs ≠ []) (offset : Nat) :
    scanFrom offset cs =
      match Token.closest? cs with
      | none => ⟨[], some ⟨cs, offset⟩⟩
      | some (kind, found) =>
        if found.skipped = [] then
          (scanFrom (offset + utf8Size found.text) found.rest).prepend kind found.text offset
        else
          ⟨[], some ⟨found.skipped, offset⟩⟩ := by
  rw [scanFrom, if_neg hne]
  split
  · rename_i hnone
    rw [hnone]
  · rename_i hsome
    rw [hsome]

/-- A separator in front of a scan leaves no token. -/
theorem Scan.prepend_separator (scan : Scan) (stretch : List Char) (offset : Nat) :
    scan.prepend .separator stretch offset = scan :=
  if_pos rfl

/-- A scan reads the token that has its extent at the beginning, and goes on behind it. -/
theorem scanFrom_of_extent {kind : Token.Kind} {stretch text rest : List Char}
    (h : Token.Extent kind stretch text rest) (offset : Nat) :
    scanFrom offset (stretch ++ rest) =
      (scanFrom (offset + utf8Size stretch) rest).prepend kind stretch offset := by
  rw [scanFrom_of_ne (by simp [h.ne_nil]), h.closest?_eq]
  exact if_pos rfl

/-- A token that is no separator is read in front of those behind it. -/
theorem scanFrom_of_token {kind : Token.Kind} {stretch text rest : List Char}
    (h : Token.Extent kind stretch text rest) (hkind : kind ≠ .separator) (offset : Nat) :
    scanFrom offset (stretch ++ rest) =
      (scanFrom (offset + utf8Size stretch) rest).behind [⟨kind, String.ofList text, offset⟩] := by
  rw [scanFrom_of_extent h, Scan.prepend, if_neg hkind, h.textOf_eq]
  rfl

/-- A gap of separators is passed over, also where the text behind it begins with more of them. -/
theorem scanFrom_separators {gap : List Char} (hgap : ∀ c ∈ gap, isSeparating c = true)
    (rest : List Char) (offset : Nat) :
    scanFrom offset (gap ++ rest) = scanFrom (offset + utf8Size gap) rest := by
  cases hrun : Token.run? isSeparating rest with
  | none =>
    have hstops := Token.run?_eq_none_iff.mp hrun
    by_cases hne : gap = []
    · rw [hne, List.nil_append, utf8Size_nil, Nat.add_zero]
    · rw [scanFrom_of_extent (.separator ⟨hne, hgap, hstops⟩), Scan.prepend_separator]
  | some found =>
    -- the separators at the beginning of the rest are read with the gap
    obtain ⟨stretch, behind⟩ := found
    obtain ⟨rfl, hstretch⟩ := Token.run?_eq_some_iff.mp hrun
    have hwhole : Token.Run isSeparating (gap ++ stretch) behind :=
      ⟨by simp [hstretch.ne], List.forall_mem_append.mpr ⟨hgap, hstretch.all⟩, hstretch.stops⟩
    rw [← List.append_assoc, scanFrom_of_extent (.separator hwhole), Scan.prepend_separator,
      scanFrom_of_extent (.separator hstretch), Scan.prepend_separator, utf8Size_append,
      Nat.add_assoc]

/-- What is read in front of a scan moves with it. -/
theorem Scan.shift_prepend (scan : Scan) (kind : Token.Kind) (stretch : List Char)
    (offset n : Nat) :
    (scan.prepend kind stretch offset).shift n =
      (scan.shift n).prepend kind stretch (offset + n) := by
  unfold prepend
  split <;> rfl

/-- A text that starts some bytes further on is read in the same way. -/
theorem scanFrom_add (offset n : Nat) (cs : List Char) :
    scanFrom (offset + n) cs = (scanFrom offset cs).shift n := by
  fun_induction scanFrom offset cs with
  | case1 offset => rw [scanFrom_nil]; rfl
  | case2 offset cs hne hclosest =>
    rw [scanFrom_of_ne hne, hclosest]
    rfl
  | case3 offset cs hne kind found hclosest hhere ih =>
    rw [scanFrom_of_ne hne, hclosest, Scan.shift_prepend, ← ih, Nat.add_right_comm]
    exact if_pos hhere
  | case4 offset cs hne kind found hclosest hskipped =>
    rw [scanFrom_of_ne hne, hclosest]
    exact if_neg hskipped

/-- A scan has tokens for its result when nothing stopped it. -/
theorem Scan.result_eq_ok_iff {scan : Scan} {tokens : List Token} :
    scan.result = .ok tokens ↔ scan = ⟨tokens, none⟩ := by
  obtain ⟨read, stop?⟩ := scan
  cases stop? <;> simp [result]

/-! ## Texts that are read to their end -/

/-- A text that starts at a given byte is read as some tokens: extents of these tokens and of
separators follow one another in it. -/
inductive Reads : (offset : Nat) → List Char → List Token → Prop
  | nil {offset : Nat} : Reads offset [] []
  | separators {offset : Nat} {gap rest : List Char} {tokens : List Token} :
      Token.Run isSeparating gap rest → Reads (offset + utf8Size gap) rest tokens →
      Reads offset (gap ++ rest) tokens
  | token {kind : Token.Kind} {offset : Nat} {stretch text rest : List Char}
      {tokens : List Token} : Token.Extent kind stretch text rest → kind ≠ .separator →
      Reads (offset + utf8Size stretch) rest tokens →
      Reads offset (stretch ++ rest) (⟨kind, String.ofList text, offset⟩ :: tokens)

/-- What is read at some place and what is read behind it are read one after the other. -/
theorem Reads.prepend {offset : Nat} {kind : Token.Kind} {stretch rest : List Char} {scan : Scan}
    (h : Token.Extent kind stretch (kind.textOf stretch) rest)
    (hreads : Reads (offset + utf8Size stretch) rest scan.tokens) :
    Reads offset (stretch ++ rest) (scan.prepend kind stretch offset).tokens := by
  by_cases hkind : kind = .separator
  · subst hkind
    rw [Scan.prepend_separator]
    cases h with
    | separator hrun => exact .separators hrun hreads
  · rw [Scan.prepend, if_neg hkind]
    exact .token h hkind hreads

/-- A scan that nothing stops reads its text. -/
theorem reads_of_scanFrom {offset : Nat} {cs : List Char}
    (h : (scanFrom offset cs).stop? = none) : Reads offset cs (scanFrom offset cs).tokens := by
  fun_induction scanFrom offset cs with
  | case1 => exact .nil
  | case2 => cases h
  | case3 offset cs hne kind found hclosest hhere ih =>
    obtain ⟨hextent, rfl⟩ := Token.extent_of_closest? hclosest hhere
    rw [Scan.stop?_prepend] at h
    exact .prepend hextent (ih h)
  | case4 => cases h

namespace Reads

variable {offset : Nat} {cs : List Char} {tokens : List Token}

/-- A text that is read is scanned as its tokens. -/
theorem scanFrom_eq (h : Reads offset cs tokens) : scanFrom offset cs = ⟨tokens, none⟩ := by
  induction h with
  | nil => exact scanFrom_nil _
  | separators hrun _ ih => rw [scanFrom_separators hrun.all, ih]
  | token hextent hkind _ ih => rw [scanFrom_of_token hextent hkind, ih]; rfl

/-- No text that is read begins with a point. -/
theorem head?_ne (h : Reads offset cs tokens) : cs.head? ≠ some '.' := by
  intro hhead
  obtain ⟨behind, rfl⟩ := List.head?_eq_some_iff.mp hhead
  have houtcome := outcome_scanFrom offset ('.' :: behind)
  rw [leftToRightFrom_of_none (List.cons_ne_nil _ _) rfl, h.scanFrom_eq] at houtcome
  cases houtcome

end Reads

/-- A text that has tokens is read as them. -/
theorem reads_of_tokenize {text : String} {tokens : List Token} (h : tokenize text = .ok tokens) :
    Reads 0 text.toList tokens := by
  have hscan : scanFrom 0 text.toList = ⟨tokens, none⟩ := Scan.result_eq_ok_iff.mp h
  have hreads := reads_of_scanFrom (congrArg Scan.stop? hscan)
  rwa [hscan] at hreads

end PredicateExpr
