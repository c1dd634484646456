import PredicateExpr.Proofs.Token.Standing

/-!
# Blanks behind operator words

The pattern of operators looks at the blank behind an operator word without matching it. A pattern
that matches the blank, too, finds the same operators at the same places once the blanks at the end
of a match are given back (`Token.find?_operator`): no operator ends in a blank, so that exactly the
blank behind a word is given back, whichever blank it is.
-/

namespace PredicateExpr

open Text

/-! ## Blanks at the end -/

namespace Text

variable {cs : List Char}

/-- A text that does not end in a blank is trimmed to itself. -/
theorem trimEnd_of_getLast? (h : cs.getLast?.any isBlank = false) : trimEnd cs = cs := by
  rw [← List.head?_reverse] at h
  rw [trimEnd, trimStart, dropWhile_of_head? h, List.reverse_reverse]

theorem trimEnd_concat {c : Char} (hc : isBlank c = true) : trimEnd (cs ++ [c]) = trimEnd cs := by
  rw [trimEnd, trimStart, List.reverse_concat, List.dropWhile_cons_of_pos hc]
  rfl

end Text

namespace Pattern

/-- A stretch that gives the blanks at its end back to what follows it. -/
def giveBack (found : List Char × List Char) : List Char × List Char :=
  (Text.trimEnd found.1, found.1.drop (Text.trimEnd found.1).length ++ found.2)

/-- A match that gives back the blanks at its end. -/
def Match.trimEnd (found : Match) : Match :=
  ⟨found.skipped, (giveBack (found.text, found.rest)).1, (giveBack (found.text, found.rest)).2⟩

/-- What remains after a match tells the stretch that was matched. -/
theorem matchStart?_of_rest? {p : Pattern} {stretch rest : List Char}
    (h : p.rest? (stretch ++ rest) = some rest) :
    p.matchStart? (stretch ++ rest) = some (stretch, rest) := by
  rw [rest?] at h
  rw [matchStart?, h]
  simp

/-- A stretch that does not end in a blank gives nothing back. -/
theorem giveBack_of_getLast? {stretch : List Char} (h : stretch.getLast?.any isBlank = false)
    (rest : List Char) : giveBack (stretch, rest) = (stretch, rest) := by
  simp [giveBack, Text.trimEnd_of_getLast? h]

/-- A stretch that ends in one blank gives it back. -/
theorem giveBack_concat {stretch : List Char} {c : Char} (hc : isBlank c = true)
    (h : stretch.getLast?.any isBlank = false) (rest : List Char) :
    giveBack (stretch ++ [c], rest) = (stretch, c :: rest) := by
  simp [giveBack, Text.trimEnd_concat hc, Text.trimEnd_of_getLast? h]

/-- A pattern with several parts in front of one is that one behind each of the parts. -/
theorem rest?_alt_seq (p q r : Pattern) (cs : List Char) :
    (seq (alt p q) r).rest? cs = ((seq p r).rest? cs).or ((seq q r).rest? cs) := by
  simp only [rest?, rests, List.flatMap_append, List.head?_append]

/-- What holds of the match at the beginning of every text holds of the match that is found. -/
theorem map_trimEnd_find? {p q : Pattern}
    (h : ∀ cs, (p.matchStart? cs).map giveBack = q.matchStart? cs) (cs : List Char) :
    (p.find? cs).map Match.trimEnd = q.find? cs := by
  induction cs with
  | nil =>
    rw [find?, find?, ← h, Option.map_map, Option.map_map]
    rfl
  | cons c cs ih =>
    rw [find?, find?, ← h (c :: cs)]
    cases p.matchStart? (c :: cs) with
    | none =>
      rw [Option.map_none, ← ih, Option.map_map, Option.map_map]
      rfl
    | some found => rfl

end Pattern

namespace Token

/-- The pattern of operators with the blank behind a word as a part of the match. -/
def Kind.spacedOperator : Pattern :=
  .alt (.exactly ['!', '=']) (.alt (.one isSymbol)
    (.seq (.alt (.exactly "and".toList) (.alt (.exactly "or".toList)
      (.alt (.exactly "xor".toList) (.exactly "not".toList)))) (.one isBlank)))

/-- A word with a blank behind it takes up one character more than the word. -/
theorem rest?_exactly_blank (word cs : List Char) :
    (Pattern.seq (.exactly word) (.one isBlank)).rest? cs =
      (wordBeforeBlank? word cs).map fun found => found.2.tail := by
  rw [Pattern.rest?_seq, Pattern.rests_exactly, wordBeforeBlank?]
  cases afterWord? word cs with
  | none => rfl
  | some rest =>
    cases rest with
    | nil => rfl
    | cons c rest =>
      cases hc : isBlank c <;> simp [Pattern.rest?, Pattern.rests, hc]

/-- The pattern of operators with a blank behind the words matches a symbol, or a word and one
character more. -/
theorem rest?_spacedOperator (cs : List Char) :
    Kind.spacedOperator.rest? cs =
      ((symbol? cs).map Prod.snd).or ((operatorWord? cs).map fun found => found.2.tail) := by
  have hsymbol := rest?_symbol cs
  rw [Pattern.rest?_alt] at hsymbol
  rw [Kind.spacedOperator, Pattern.rest?_alt, Pattern.rest?_alt, ← Option.or_assoc, hsymbol]
  simp only [Pattern.rest?_alt_seq, rest?_exactly_blank, operatorWord?, List.findSome?_cons,
    List.findSome?_nil]
  cases wordBeforeBlank? "and".toList cs <;> cases wordBeforeBlank? "or".toList cs <;>
    cases wordBeforeBlank? "xor".toList cs <;> cases wordBeforeBlank? "not".toList cs <;> rfl

/-- No operator ends in a blank. -/
theorem getLast?_of_mem {text : List Char}
    (h : String.ofList text ∈ ["!=", "&", "|", "^", "!", "and", "or", "xor", "not"]) :
    text.getLast?.any isBlank = false := by
  have hall : ∀ text ∈ ["!=", "&", "|", "^", "!", "and", "or", "xor", "not"],
      text.toList.getLast?.any isBlank = false := by decide
  have htext := hall _ h
  rwa [String.toList_ofList] at htext

/-- At the beginning of a text, an operator is matched with the blank behind it or without. -/
theorem map_giveBack_matchStart? (cs : List Char) :
    (Kind.spacedOperator.matchStart? cs).map Pattern.giveBack =
      Kind.operator.pattern.matchStart? cs := by
  have hspaced := rest?_spacedOperator cs
  have hoperator : Kind.operator.pattern.matchStart? cs = (symbol? cs).or (operatorWord? cs) := by
    have hmap := Kind.operator.map_matchStart? cs
    rwa [show (fun found : List Char × List Char => (Kind.operator.textOf found.1, found.2)) = id
      from rfl, Option.map_id] at hmap
  rw [hoperator]
  cases hsymbol : symbol? cs with
  | some found =>
    obtain ⟨text, rest⟩ := found
    obtain ⟨_, rfl⟩ := append_of_symbol? hsymbol
    have hlast := getLast?_of_mem (List.mem_append_left ["and", "or", "xor", "not"]
      (mem_of_symbol? hsymbol))
    rw [hsymbol, Option.map_some, Option.some_or] at hspaced
    rw [Pattern.matchStart?_of_rest? hspaced, Option.map_some,
      Pattern.giveBack_of_getLast? hlast, Option.some_or]
  | none =>
    rw [hsymbol, Option.map_none, Option.none_or] at hspaced
    rw [Option.none_or]
    cases hword : operatorWord? cs with
    | none =>
      rw [hword, Option.map_none, Pattern.rest?] at hspaced
      rw [Pattern.matchStart?, hspaced]
      rfl
    | some found =>
      obtain ⟨word, rest⟩ := found
      obtain ⟨rfl, hmem, hblank⟩ := operatorWord?_eq_some_iff.mp hword
      obtain ⟨c, hhead, hc⟩ := (Option.any_eq_true _ _).mp hblank
      obtain ⟨behind, rfl⟩ := List.head?_eq_some_iff.mp hhead
      have hlast := getLast?_of_mem (List.mem_append_right ["!=", "&", "|", "^", "!"] hmem)
      rw [hword, Option.map_some, List.tail_cons, List.append_cons] at hspaced
      rw [List.append_cons, Pattern.matchStart?_of_rest? hspaced, Option.map_some,
        Pattern.giveBack_concat hc hlast]

/-- Operators are found with the blanks behind words given back where they are found without these
blanks. -/
theorem find?_operator (cs : List Char) :
    (Kind.spacedOperator.find? cs).map Pattern.Match.trimEnd = Kind.operator.pattern.find? cs :=
  Pattern.map_trimEnd_find? map_giveBack_matchStart? cs

end Token

end PredicateExpr
