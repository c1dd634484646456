import PredicateExpr.Token.Scanner

/-!
# What the patterns of tokens match

A reader of `Token.first?` and the pattern of the same kind take up the same stretch of a text
(`Token.Kind.map_matchStart?`). A pattern has to be followed through its preferences here: which of
several ways to match comes first, and when a later way is fallen back on. Only three parts of the
patterns repeat or are optional, and none of them ever gives back a character with success: what
follows a run does not begin with a character of the run.
-/

namespace PredicateExpr

open Text

namespace Pattern

/-- What remains of a text after the match at its beginning. -/
def rest? (p : Pattern) (cs : List Char) : Option (List Char) :=
  (p.rests cs).head?

/-- Of two patterns the second one matches where the first one does not. -/
theorem rest?_alt (p q : Pattern) (cs : List Char) :
    (alt p q).rest? cs = (p.rest? cs).or (q.rest? cs) := by
  rw [rest?, rests, List.head?_append]
  rfl

/-- A pattern behind another one matches after the first way of matching that one that allows it. -/
theorem rest?_seq (p q : Pattern) (cs : List Char) :
    (seq p q).rest? cs = (p.rests cs).findSome? q.rest? := by
  rw [rest?, rests, List.head?_flatMap]
  rfl

/-- A class of characters matches a single one of them. -/
theorem rest?_one (accepts : Char → Bool) (cs : List Char) :
    (one accepts).rest? cs = (Token.single? accepts cs).map Prod.snd := by
  cases cs with
  | nil => rfl
  | cons c cs =>
    rw [rest?, rests, Token.single?]
    split <;> rfl

/-- After one character of a class, the pattern that follows is matched. -/
theorem rest?_one_seq (accepts : Char → Bool) (q : Pattern) (c : Char) (cs : List Char) :
    (seq (one accepts) q).rest? (c :: cs) = if accepts c then q.rest? cs else none := by
  rw [rest?_seq, rests]
  split
  · rw [List.findSome?_cons, List.findSome?_nil]
    cases q.rest? cs <;> rfl
  · rfl

/-- Nothing is given back for what is optional. -/
theorem rest?_seq_maybe (p q : Pattern) (cs : List Char) :
    (seq p (maybe q)).rest? cs = (p.rest? cs).bind (maybe q).rest? := by
  rw [rest?_seq, rest?]
  cases p.rests cs with
  | nil => rfl
  | cons rest others =>
    have hsome : ((maybe q).rest? rest).isSome := by
      rw [maybe, rest?_alt, Option.isSome_or]
      exact Bool.or_true _
    obtain ⟨behind, hbehind⟩ := Option.isSome_iff_exists.mp hsome
    rw [List.findSome?_cons, hbehind, List.head?_cons, Option.bind_some, hbehind]

/-- The given characters can be matched in one way only. -/
theorem rests_exactly (word cs : List Char) :
    (exactly word).rests cs = (Token.afterWord? word cs).toList := by
  induction word generalizing cs with
  | nil => rfl
  | cons c word ih =>
    cases cs with
    | nil => rfl
    | cons d cs =>
      rw [exactly, rests, rests, Token.afterWord?]
      by_cases heq : c = d
      · rw [if_pos (by simp [heq]), if_pos heq, List.flatMap_singleton, ih]
      · rw [if_neg (by simpa using fun h => heq h.symm), if_neg heq]
        rfl

/-! ## Runs of characters of a class -/

/-- The ways to match characters of a class that begin a text, that of matching none included: the
longest run comes first, and every shorter one stops in front of a character of the class. -/
theorem restsOfMany_cons_eq (accepts : Char → Bool) (found : List (List Char)) (cs : List Char) :
    ∃ shorter, restsOfMany accepts (cs :: found) cs = cs.dropWhile accepts :: shorter ++ found ∧
      ∀ r ∈ shorter, r.head?.any accepts = true := by
  induction cs generalizing found with
  | nil => exact ⟨[], rfl, by simp⟩
  | cons c cs ih =>
    cases hc : accepts c with
    | false => exact ⟨[], by simp [restsOfMany, hc], by simp⟩
    | true =>
      obtain ⟨shorter, hrests, hshorter⟩ := ih ((c :: cs) :: found)
      refine ⟨shorter ++ [c :: cs], ?_, fun r hr => ?_⟩
      · rw [restsOfMany, if_pos hc, hrests, List.dropWhile_cons_of_pos hc]
        simp
      · rcases List.mem_append.mp hr with hr | hr
        · exact hshorter r hr
        · simp [List.mem_singleton.mp hr, hc]

/-- A repeated class of characters matches as many of them as it can. -/
theorem rest?_many (accepts : Char → Bool) (cs : List Char) :
    (many accepts).rest? cs = (Token.run? accepts cs).map Prod.snd := by
  cases cs with
  | nil => rfl
  | cons c cs =>
    rw [rest?, rests, restsOfMany]
    cases hc : accepts c with
    | false => simp [Token.run?, hc]
    | true =>
      obtain ⟨shorter, hrests, _⟩ := restsOfMany_cons_eq accepts [] cs
      rw [if_pos rfl, hrests]
      simp [Token.run?, hc]

/-- The ways to match an optional run. -/
theorem rests_maybe_many (accepts : Char → Bool) (cs : List Char) :
    ∃ shorter, (maybe (many accepts)).rests cs = cs.dropWhile accepts :: shorter ∧
      ∀ r ∈ shorter, r.head?.any accepts = true := by
  cases cs with
  | nil => exact ⟨[], rfl, by simp⟩
  | cons c cs =>
    rw [maybe, rests, rests, rests, restsOfMany]
    cases hc : accepts c with
    | false => exact ⟨[], by simp [hc], by simp⟩
    | true =>
      obtain ⟨shorter, hrests, hshorter⟩ := restsOfMany_cons_eq accepts [] cs
      refine ⟨shorter ++ [c :: cs], ?_, fun r hr => ?_⟩
      · rw [if_pos rfl, hrests, List.dropWhile_cons_of_pos hc]
        simp
      · rcases List.mem_append.mp hr with hr | hr
        · exact hshorter r hr
        · simp [List.mem_singleton.mp hr, hc]

/-- Between two delimiters no characters but those up to the next delimiter are matched. -/
theorem rest?_maybe_many_one (accepts : Char → Bool) (cs : List Char) :
    (seq (maybe (many accepts)) (one fun c => !accepts c)).rest? cs =
      (cs.dropWhile accepts).tail? := by
  obtain ⟨shorter, hrests, hshorter⟩ := rests_maybe_many accepts cs
  have hothers : shorter.findSome? (one fun c => !accepts c).rest? = none := by
    rw [List.findSome?_eq_none_iff]
    intro r hr
    have hstart := hshorter r hr
    cases r with
    | nil => cases hstart
    | cons c r => simpa [rest?, rests] using hstart
  rw [rest?_seq, hrests, List.findSome?_cons, hothers]
  cases hdrop : cs.dropWhile accepts with
  | nil => rfl
  | cons c behind =>
    have hstop : accepts c = false := by
      have hhead := List.head?_dropWhile_not accepts cs
      rw [hdrop] at hhead
      simpa using hhead
    simp [rest?, rests, hstop]

end Pattern

namespace Token

/-! ## What follows the token of a kind -/

/-- An operator word takes up its letters and no more. -/
theorem rest?_operatorWord (word : String) (cs : List Char) :
    (Kind.operatorWord word).rest? cs = (wordBeforeBlank? word.toList cs).map Prod.snd := by
  rw [Kind.operatorWord, Pattern.rest?_seq, Pattern.rests_exactly, wordBeforeBlank?]
  cases afterWord? word.toList cs with
  | none => rfl
  | some rest =>
    cases rest with
    | nil => rfl
    | cons c rest =>
      cases hc : isBlank c <;> simp [Pattern.rest?, Pattern.rests, hc]

/-- The pattern of operator symbols matches what is read as one. -/
theorem rest?_symbol (cs : List Char) :
    (Pattern.alt (.exactly ['!', '=']) (.one Kind.isSymbol)).rest? cs =
      (symbol? cs).map Prod.snd := by
  rw [Pattern.rest?_alt, Pattern.rest?_one, Pattern.rest?, Pattern.rests_exactly]
  unfold symbol?
  split
  · simp [afterWord?]
  · rename_i c cs hne
    have hafter : afterWord? ['!', '='] (c :: cs) = none := by
      rw [afterWord?]
      split
      · rename_i hc
        cases cs with
        | nil => rfl
        | cons d cs =>
          rw [afterWord?, if_neg]
          rintro rfl
          exact hne cs hc.symm rfl
      · rfl
    rw [hafter, single?]
    rfl
  · rfl

/-- The pattern of quoted texts matches what is read as one. -/
theorem rest?_quoted (cs : List Char) :
    Kind.quoted.rest? cs = (quoted? cs).map Prod.snd := by
  have hclass : (fun c : Char => c == '\x27') = fun c => !(c != '\x27') := by
    funext c
    simp [bne]
  cases cs with
  | nil => rfl
  | cons c cs =>
    rw [Kind.quoted, Pattern.rest?_one_seq, hclass, Pattern.rest?_maybe_many_one]
    by_cases hc : c = '\x27'
    · subst hc
      rw [if_pos (by decide), quoted?]
      cases cs.dropWhile (· != '\x27') <;> rfl
    · rw [if_neg (by simp [hc]), quoted?]
      · rfl
      · intro behind heq
        cases heq
        exact hc rfl

/-- The pattern of digits, with a fraction or without, matches what is read as them. -/
theorem rest?_decimal (cs : List Char) :
    (Pattern.seq Kind.digits (.maybe (.seq (.one (· == '.')) Kind.digits))).rest? cs =
      (decimal? cs).map Prod.snd := by
  rw [Pattern.rest?_seq_maybe, Kind.digits, Pattern.rest?_many, decimal?]
  cases run? isDecimalDigit cs with
  | none => rfl
  | some pair =>
    obtain ⟨whole, rest⟩ := pair
    rw [Option.map_some, Option.bind_some, Pattern.maybe, Pattern.rest?_alt, Option.map_some,
      Option.map_some]
    cases rest with
    | nil => rfl
    | cons c behind =>
      rw [Pattern.rest?_one_seq, Pattern.rest?_many]
      by_cases hc : c = '.'
      · subst hc
        rw [if_pos (by decide)]
        cases hfraction : run? isDecimalDigit behind with
        | none => simp [hfraction, Pattern.rest?, Pattern.rests]
        | some found => simp [hfraction]
      · rw [if_neg (by simp [hc])]
        simp [hc, Pattern.rest?, Pattern.rests]

/-- The pattern of numbers matches what is read as one. -/
theorem rest?_number (cs : List Char) :
    Kind.number.rest? cs = (number? cs).map Prod.snd := by
  rw [Kind.number, Pattern.rest?_seq]
  unfold number?
  split
  · rename_i cs
    have hsign : (Pattern.maybe (.one (· == '-'))).rests ('-' :: cs) = [cs, '-' :: cs] := rfl
    have hdigits : decimal? ('-' :: cs) = none := by
      have hdash : isDecimalDigit '-' = false := by decide
      simp [decimal?, run?, hdash]
    rw [hsign, List.findSome?_cons, List.findSome?_singleton, rest?_decimal, rest?_decimal,
      hdigits]
    cases decimal? cs <;> rfl
  · rename_i hne
    have hunsigned : (Pattern.maybe (.one (· == '-'))).rests cs = [cs] := by
      cases cs with
      | nil => rfl
      | cons c cs =>
        have hc : c ≠ '-' := by
          rintro rfl
          exact hne cs rfl
        simp [Pattern.maybe, Pattern.rests, hc]
    rw [hunsigned, List.findSome?_singleton, rest?_decimal]

/-- The pattern of a kind leaves what the reader of that kind leaves. -/
theorem Kind.rest?_pattern (kind : Kind) (cs : List Char) :
    kind.pattern.rest? cs = (kind.first? cs).map Prod.snd := by
  cases kind with
  | opener => exact Pattern.rest?_one _ cs
  | closer => exact Pattern.rest?_one _ cs
  | separator => exact Pattern.rest?_many _ cs
  | operator =>
    have hwords : (Pattern.alt (operatorWord "and") (.alt (operatorWord "or")
        (.alt (operatorWord "xor") (operatorWord "not")))).rest? cs =
        (operatorWord? cs).map Prod.snd := by
      simp only [Pattern.rest?_alt, rest?_operatorWord, operatorWord?, List.findSome?_cons,
        List.findSome?_nil]
      cases wordBeforeBlank? "and".toList cs <;> cases wordBeforeBlank? "or".toList cs <;>
        cases wordBeforeBlank? "xor".toList cs <;> cases wordBeforeBlank? "not".toList cs <;> rfl
    have hsymbol := rest?_symbol cs
    rw [Pattern.rest?_alt] at hsymbol
    rw [pattern, Pattern.rest?_alt, Pattern.rest?_alt, hwords, ← Option.or_assoc, hsymbol,
      first?, Option.map_or]
  | literal =>
    rw [pattern, Pattern.rest?_alt, rest?_quoted, rest?_number, first?, Option.map_or]
  | word => exact Pattern.rest?_many _ cs

/-! ## The text of a token -/

/-- A number does not begin with a quote. -/
theorem unquote_of_number? {cs text rest : List Char} (h : number? cs = some (text, rest)) :
    Kind.unquote text = text := by
  obtain ⟨hne, happend⟩ := append_of_number? h
  cases text with
  | nil => exact absurd rfl hne
  | cons c text =>
    have hc : c ≠ '\x27' := by
      rintro rfl
      have hquote : isDecimalDigit '\x27' = false := by decide
      rw [← happend] at h
      simp [number?, decimal?, run?, hquote] at h
    rw [Kind.unquote, if_neg fun hquoted => hc hquoted.1]

/-- The text of a token is made from the stretch that it takes up. -/
theorem Kind.exists_stretch_of_first? {kind : Kind} {cs text rest : List Char}
    (h : kind.first? cs = some (text, rest)) :
    ∃ stretch, stretch ++ rest = cs ∧ kind.textOf stretch = text := by
  rcases Kind.append_of_first? h with ⟨_, happend⟩ | ⟨rfl, happend⟩
  · refine ⟨text, happend, ?_⟩
    cases kind with
    | literal =>
      rcases Option.or_eq_some_iff.mp h with hquoted | ⟨_, hnumber⟩
      · -- a quoted text takes up two characters more than its text
        have hlength := congrArg List.length ((append_of_quoted? hquoted).trans happend.symm)
        simp at hlength
        omega
      · exact unquote_of_number? hnumber
    | _ => rfl
  · refine ⟨'\x27' :: text ++ ['\x27'], by simpa using happend, ?_⟩
    rw [textOf, List.cons_append, unquote, if_pos ⟨rfl, List.getLast?_concat⟩,
      List.dropLast_concat]

/-- A reader takes up what the pattern of its kind matches at the beginning of a text. -/
theorem Kind.map_matchStart? (kind : Kind) (cs : List Char) :
    (kind.pattern.matchStart? cs).map (fun found => (kind.textOf found.1, found.2)) =
      kind.first? cs := by
  have hrest := kind.rest?_pattern cs
  rw [Pattern.rest?] at hrest
  rw [Pattern.matchStart?, hrest]
  cases hfirst : kind.first? cs with
  | none => rfl
  | some found =>
    obtain ⟨text, rest⟩ := found
    obtain ⟨stretch, happend, htext⟩ := exists_stretch_of_first? hfirst
    have htake : cs.take (cs.length - rest.length) = stretch := by
      rw [← happend]
      simp
    simp only [Option.map_some, htake, htext]

end Token

end PredicateExpr
