import PredicateExpr.Condition.Basic
import PredicateExpr.Proofs.Nesting.Failure
import PredicateExpr.Proofs.Token.Trimming

/-!
# Errors point into the text

A text that is no condition is refused with an error that points at what it names: the byte of the
error is one of the text, and what stands there is the stretch or the token that the error is about
(`Condition.parse_pointsIn`). Since no token of a text is an operator without a spelling, no text is
refused for an unknown operator (`Condition.parse_knows_operators`).
-/

namespace PredicateExpr

open Grammar (Spells)
open Text

namespace Token.StandsIn

variable {text : String} {token : Token}

/-- The text goes on with the text of a token that is not quoted. -/
theorem exists_append (h : token.StandsIn text) (hkind : token.kind ≠ .literal) :
    ∃ rest, dropBytes? token.offset text.toList = some (token.text.toList ++ rest) := by
  obtain ⟨rest, hrest⟩ := h.here
  have hspan : token.span text.toList = token.text.toList := by
    rw [span, spanAt, if_neg fun hquoted => hkind hquoted.1]
  rw [hspan] at hrest
  exact ⟨rest, hrest⟩

/-- What a token that is not quoted begins with, the text begins with at the byte of the token. -/
theorem exists_head {accepts : Char → Bool} (h : token.StandsIn text)
    (hkind : token.kind ≠ .literal) (hhead : token.text.toList.head?.any accepts = true) :
    ∃ here, dropBytes? token.offset text.toList = some here ∧
      here.head?.any accepts = true := by
  obtain ⟨rest, hrest⟩ := h.exists_append hkind
  refine ⟨_, hrest, ?_⟩
  cases hfirst : token.text.toList.head? with
  | none =>
    rw [hfirst] at hhead
    cases hhead
  | some c =>
    rw [hfirst] at hhead
    rwa [List.head?_append, hfirst]

/-- Where an opening bracket stands, the text goes on with a character that opens a group. -/
theorem head_opener (h : token.StandsIn text) (hkind : token.kind = .opener) :
    ∃ here, dropBytes? token.offset text.toList = some here ∧
      here.head?.any Kind.isOpening = true := by
  have hall : ∀ text ∈ ["(", "[", "\x7b"], text.toList.head?.any Kind.isOpening = true := by decide
  have hlegal := h.legal
  rw [Legal, hkind] at hlegal
  exact h.exists_head (by simp [hkind]) (hall token.text hlegal)

/-- Where a closing bracket stands, the text goes on with a character that closes a group. -/
theorem head_closer (h : token.StandsIn text) (hkind : token.kind = .closer) :
    ∃ here, dropBytes? token.offset text.toList = some here ∧
      here.head?.any Kind.isClosing = true := by
  have hall : ∀ text ∈ [")", "]", "\x7d"], text.toList.head?.any Kind.isClosing = true := by decide
  have hlegal := h.legal
  rw [Legal, hkind] at hlegal
  exact h.exists_head (by simp [hkind]) (hall token.text hlegal)

/-- Where a word stands, the text goes on with a character of names. -/
theorem head_word (h : token.StandsIn text) (hkind : token.kind = .word) :
    ∃ here, dropBytes? token.offset text.toList = some here ∧
      here.head?.any Kind.isNameChar = true := by
  have hlegal := h.legal
  rw [Legal, hkind] at hlegal
  obtain ⟨hne, hname⟩ : Atom.NameWritable token.text := hlegal
  refine h.exists_head (by simp [hkind]) ?_
  cases hcs : token.text.toList with
  | nil => exact absurd (String.toList_eq_nil_iff.mp hcs) hne
  | cons c cs => exact hname c (hcs ▸ List.mem_cons_self)

/-- Where an operator stands, the text goes on with a spelling of it. -/
theorem head_spells {op : Operator} (h : token.StandsIn text) (hop : Spells token op) :
    ∃ here, dropBytes? token.offset text.toList = some here ∧
      ∃ spelled, Spells spelled op ∧ spelled.text.toList <+: here := by
  obtain ⟨rest, hrest⟩ := h.exists_append (by simp [hop.1])
  exact ⟨_, hrest, token, hop, List.prefix_append _ _⟩

/-- Where a token begins an operand, the text begins like one. -/
theorem operandHeads (h : token.StandsIn text) (hbegins : token.BeginsOperand) :
    ∃ here, dropBytes? token.offset text.toList = some here ∧
      CompileError.OperandHeads here := by
  obtain hword | hopener | hop := hbegins
  · obtain ⟨here, hhere, hhead⟩ := h.head_word hword
    exact ⟨here, hhere, .inl hhead⟩
  · obtain ⟨here, hhere, hhead⟩ := h.head_opener hopener
    exact ⟨here, hhere, .inr (.inl hhead)⟩
  · obtain ⟨here, hhere, hhead⟩ := h.head_spells hop
    exact ⟨here, hhere, .inr (.inr hhead)⟩

/-- No operator that stands in a text is unknown. -/
theorem ofText?_ne_none (h : token.StandsIn text) (hkind : token.kind = .operator) :
    Operator.ofText? token.text ≠ none := by
  obtain ⟨op, hop⟩ := h.legal.exists_spells hkind
  rw [(Grammar.spells_iff.mp hop).2]
  exact Option.some_ne_none op

end Token.StandsIn

namespace CompileError

variable {text : String} {e : CompileError}

/-- Where the token stands that an error is about, the text begins as the error says. -/
theorem PointsAt.heads {tokens : List Token} {token : Token} (h : e.PointsAt tokens token)
    (hstands : token.StandsIn text) :
    ∃ here, dropBytes? e.offset text.toList = some here ∧ e.Heads here := by
  cases h with
  | strayLiteral _ hkind =>
    obtain ⟨here, rest, hhere, hread⟩ := hstands.literal hkind
    exact ⟨here, hhere, hread.imp Option.isSome_of_eq_some Option.isSome_of_eq_some⟩
  | groupsTooDeep _ hkind => exact hstands.head_opener hkind
  | unclosedGroup _ hkind => exact hstands.head_opener hkind
  | strayCloser _ hkind => exact hstands.head_closer hkind
  | operatorsTooDeep _ _ _ hbegins => exact hstands.operandHeads hbegins
  | missingOperator _ _ _ _ hbegins => exact hstands.operandHeads hbegins
  | missingOperand _ _ hop => exact hstands.head_spells hop
  | unknownOperator _ hkind hnone => exact absurd hnone (hstands.ofText?_ne_none hkind)

namespace PointsIn

/-- At the byte of an error a text begins as the error says. -/
theorem heads (h : e.PointsIn text) :
    ∃ here, dropBytes? e.offset text.toList = some here ∧ e.Heads here := by
  cases h with
  | @stretch fragment rest _ _ hhere =>
    refine ⟨_, hhere, ?_⟩
    rw [Heads, String.toList_ofList]
    exact List.prefix_append _ _
  | token _ hpoints hstands => exact hpoints.heads hstands

/-- An error does not point behind the text. -/
theorem offset_lt (h : e.PointsIn text) : e.offset < utf8Size text.toList := by
  have hlt : ∀ {offset : Nat} {stretch rest : List Char}, stretch ≠ [] →
      dropBytes? offset text.toList = some (stretch ++ rest) → offset < utf8Size text.toList := by
    intro offset stretch rest hne hhere
    have hsize := utf8Size_of_dropBytes? hhere
    have hpos := utf8Size_pos hne
    rw [utf8Size_append] at hsize
    omega
  cases h with
  | stretch hne hhere => exact hlt hne hhere
  | token _ hpoints hstands =>
    obtain ⟨rest, hhere⟩ := hstands.here
    rw [hpoints.offset_eq]
    exact hlt hstands.span_ne hhere

/-- The operators of a text are known. -/
theorem ne_unknownOperator (h : e.PointsIn text) (spelling : String) (offset : Nat) :
    e ≠ .unknownOperator spelling offset := by
  rintro rfl
  obtain ⟨_, _, hheads⟩ := h.heads
  exact hheads

end PointsIn

end CompileError

namespace Condition

variable {σ : Type} {text : String} {e : CompileError}

/-- An error about a text points at what it is about. -/
theorem pointsIn_of_parse (h : (parse text : Except CompileError (Condition σ)) = .error e) :
    e.PointsIn text := by
  obtain hlex | ⟨tokens, htokens, htree⟩ := bind_eq_error_iff.mp h
  · obtain ⟨stop, hstop, rfl⟩ := exists_stop_of_tokenize hlex
    obtain ⟨hne, rest, hhere⟩ := exists_of_stop?_scan hstop
    exact .stretch hne hhere
  · obtain hparse | ⟨_, _, hpure⟩ := bind_eq_error_iff.mp htree
    · obtain ⟨token, hpoints⟩ := exists_pointsAt_of_parse hparse
      have hstands := standsIn_of_mem_scan text
      rw [tokens_of_tokenize htokens] at hstands
      have hkeep : Grammar.significant tokens = tokens := by
        rw [Grammar.significant, List.filter_eq_self]
        intro token hmem
        simpa using (hstands token hmem).legal.kind_ne
      rw [hkeep] at hpoints
      exact .token htokens hpoints (hstands token hpoints.mem)
    · cases hpure

/-- An error about a text points into it, at a boundary. The text begins there as the error says:
with the fragment, with an operator, a bracket, a literal or the beginning of an operand. Where it
is about a token, this is one of the tokens of the text, and one that is wrong as the error says; an
operand that nothing joins to the one before it stands right behind the last token of that one. -/
theorem parse_pointsIn (h : (parse text : Except CompileError (Condition σ)) = .error e) :
    e.offset < utf8Size text.toList ∧
      (∃ here, dropBytes? e.offset text.toList = some here ∧ e.Heads here) ∧
      e.PointsIn text := by
  have hpoints := pointsIn_of_parse h
  exact ⟨hpoints.offset_lt, hpoints.heads, hpoints⟩

/-- A group behind a name with an argument of two bytes, and nothing that joins them. -/
theorem parse_pointsIn_of_adjacent :
    (parse "f 'é' [x & y]" : Except CompileError (Condition Unit)) =
        .error (.missingOperator 7) ∧
      7 < utf8Size "f 'é' [x & y]".toList ∧
      (∃ here, dropBytes? 7 "f 'é' [x & y]".toList = some here ∧
        (CompileError.missingOperator 7).Heads here) ∧
      (CompileError.missingOperator 7).PointsIn "f 'é' [x & y]" := by
  have htokens : tokenize "f 'é' [x & y]" = .ok [⟨.word, "f", 0⟩, ⟨.literal, "é", 2⟩,
      ⟨.opener, "[", 7⟩, ⟨.word, "x", 8⟩, ⟨.operator, "&", 10⟩, ⟨.word, "y", 12⟩,
      ⟨.closer, "]", 13⟩] := by decide +kernel
  have hparse : (parse "f 'é' [x & y]" : Except CompileError (Condition Unit)) =
      .error (.missingOperator 7) := by
    rw [parse, htokens]
    rfl
  exact ⟨hparse, parse_pointsIn hparse⟩

/-- Every operator among the tokens of a text is known, also in a text that is not read to its end,
every word is a name, and no literal holds a quote. So no text is refused for an unknown operator.
Whatever blank stands behind an operator word, it does not get into the text of the token: to match
it with the word and trim the match comes to the same. -/
theorem parse_knows_operators (text : String) :
    (∀ token ∈ (scan text).tokens,
      (token.kind = .operator → ∃ op, Operator.ofText? token.text = some op) ∧
      (token.kind = .word → Atom.NameWritable token.text) ∧
      (token.kind = .literal → Atom.ArgWritable token.text)) ∧
    (∀ tokens, tokenize text = .ok tokens → tokens = (scan text).tokens) ∧
    (∀ cs, (Token.Kind.spacedOperator.find? cs).map Pattern.Match.trimEnd =
      Token.Kind.operator.pattern.find? cs) ∧
    ∀ spelling offset, (parse text : Except CompileError (Condition σ)) ≠
      .error (.unknownOperator spelling offset) := by
  refine ⟨?_, ?_, Token.find?_operator, ?_⟩
  · intro token hmem
    have hlegal := (standsIn_of_mem_scan text token hmem).legal
    refine ⟨?_, ?_, ?_⟩
    · intro hkind
      obtain ⟨op, hop⟩ := hlegal.exists_spells hkind
      exact ⟨op, (Grammar.spells_iff.mp hop).2⟩
    · intro hkind
      rwa [Token.Legal, hkind] at hlegal
    · intro hkind
      rwa [Token.Legal, hkind] at hlegal
  · intro tokens htokens
    exact (tokens_of_tokenize htokens).symm
  · intro spelling offset h
    exact (pointsIn_of_parse h).ne_unknownOperator spelling offset rfl

/-- Operator words in front of an em space and an ideographic space, and words and literals that are
spelled like operators. -/
theorem parse_knows_operators_of_wide_blanks :
    tokenize "Or and\u2003not\u3000(xor, 'or ')" = .ok [⟨.word, "Or", 0⟩, ⟨.operator, "and", 3⟩,
        ⟨.operator, "not", 9⟩, ⟨.opener, "(", 15⟩, ⟨.word, "xor", 16⟩, ⟨.literal, "or ", 21⟩,
        ⟨.closer, ")", 26⟩] ∧
      (∀ token ∈ (scan "Or and\u2003not\u3000(xor, 'or ')").tokens, token.kind = .operator →
        ∃ op, Operator.ofText? token.text = some op) ∧
      ∀ spelling offset,
        (parse "Or and\u2003not\u3000(xor, 'or ')" : Except CompileError (Condition Unit)) ≠
          .error (.unknownOperator spelling offset) := by
  obtain ⟨hknown, _, _, hparse⟩ :=
    parse_knows_operators (σ := Unit) "Or and\u2003not\u3000(xor, 'or ')"
  refine ⟨?_, fun token hmem => (hknown token hmem).1, hparse⟩
  decide +kernel

end Condition

end PredicateExpr
