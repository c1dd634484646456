import Mathlib.Tactic.Common
import PredicateExpr.Proofs.Token.Beginnings
import PredicateExpr.Proofs.Token.LeftToRight
import PredicateExpr.Token.Source

/-!
# Tokens are read as they are written

The source text of a token is read as this token wherever no separator follows it
(`leftToRightFrom_source`), and no source text begins with a separator. So a row of source texts is
read as the row of their tokens, and no two of them merge or fall apart (`tokenize_source`).
-/

namespace PredicateExpr

open Text
open Token.Kind (isSeparating)

namespace Token

/-! ## Separators at the beginning of a text -/

/-- A gap of separators is passed over. -/
theorem leftToRightFrom_separators {gap rest : List Char}
    (hgap : ∀ c ∈ gap, isSeparating c = true) (hrest : rest.head?.any isSeparating = false)
    (offset : Nat) :
    leftToRightFrom offset (gap ++ rest) = leftToRightFrom (offset + utf8Size gap) rest := by
  cases gap with
  | nil => rfl
  | cons c gap =>
    rw [List.forall_mem_cons] at hgap
    have hfirst := first?_separating hgap.1 (gap ++ rest)
    rw [List.dropWhile_append_of_pos hgap.2, dropWhile_of_head? hrest] at hfirst
    rw [List.cons_append, leftToRightFrom_of_some hfirst, ← List.cons_append, utf8Size_append,
      Nat.add_sub_cancel]
    simp only [if_pos]
    exact congrFun Except.map_id _

/-- Where another token is read, no separator comes first. -/
theorem head?_of_first? {cs text rest : List Char} {kind : Kind}
    (h : first? cs = some (kind, text, rest)) (hkind : kind ≠ .separator) :
    cs.head?.any isSeparating = false := by
  cases cs with
  | nil => rfl
  | cons c cs =>
    rw [List.head?_cons, Option.any_some]
    by_contra hc
    rw [first?_separating (by simpa using hc)] at h
    cases h
    exact hkind rfl

/-! ## One source text -/

/-- An opening bracket is a token by itself. -/
theorem first?_opener {text : String} (h : Kind.opener.Admits text) (rest : List Char) :
    first? (text.toList ++ rest) = some (.opener, text.toList, rest) := by
  have hmem : text ∈ ["(", "[", "\x7b"] := h
  simp only [List.mem_cons, List.not_mem_nil, or_false] at hmem
  rcases hmem with rfl | rfl | rfl <;> rfl

/-- A closing bracket is a token by itself. -/
theorem first?_closer {text : String} (h : Kind.closer.Admits text) (rest : List Char) :
    first? (text.toList ++ rest) = some (.closer, text.toList, rest) := by
  have hmem : text ∈ [")", "]", "\x7d"] := h
  simp only [List.mem_cons, List.not_mem_nil, or_false] at hmem
  rcases hmem with rfl | rfl | rfl <;> rfl

/-- An operator in front of a blank is read as an operator, be it a symbol or a word. -/
theorem first?_operator {text : String} (h : Kind.operator.Admits text) (rest : List Char) :
    first? (text.toList ++ ' ' :: rest) = some (.operator, text.toList, ' ' :: rest) := by
  have hmem : text ∈ ["!=", "&", "|", "^", "!", "and", "or", "xor", "not"] := h
  simp only [List.mem_cons, List.not_mem_nil, or_false] at hmem
  rcases hmem with rfl | rfl | rfl | rfl | rfl | rfl | rfl | rfl | rfl <;> rfl

/-- A source text begins with its token, and what is left of it behind the token separates. -/
theorem Legal.first?_source {token : Token} (h : token.Legal) :
    ∃ front gap, token.source = front ++ gap ∧ (∀ c ∈ gap, isSeparating c = true) ∧
      ∀ rest, first? (token.source ++ rest) =
        some (token.kind, token.text.toList, gap ++ rest) := by
  obtain ⟨kind, text, offset⟩ := token
  have hblank : ∀ c ∈ [' '], isSeparating c = true := List.forall_mem_singleton.mpr (by decide)
  have hcomma : ∀ c ∈ [','], isSeparating c = true := List.forall_mem_singleton.mpr (by decide)
  cases kind with
  | opener => exact ⟨text.toList, [], by simp [source], by simp, first?_opener h⟩
  | closer => exact ⟨text.toList, [], by simp [source], by simp, first?_closer h⟩
  | separator => cases h
  | operator =>
    refine ⟨text.toList, [' '], rfl, hblank, ?_⟩
    intro rest
    have hread := first?_operator h rest
    simpa [source] using hread
  | literal =>
    refine ⟨'\x27' :: text.toList ++ ['\x27'], [], by simp [source], by simp, ?_⟩
    intro rest
    have hread := first?_quoted h rest
    simpa [source] using hread
  | word =>
    refine ⟨text.toList, [','], rfl, hcomma, ?_⟩
    intro rest
    have hne : text.toList ≠ [] := by
      intro hnil
      exact h.1 (String.toList_inj.mp (by rw [hnil]; rfl))
    have hread := first?_name hne h.2 rest
    simpa [source] using hread

/-- No source text begins with a separator. -/
theorem Legal.head?_source {token : Token} (h : token.Legal) (rest : List Char) :
    (token.source ++ rest).head?.any isSeparating = false := by
  obtain ⟨_, gap, _, _, hfirst⟩ := h.first?_source
  exact head?_of_first? (hfirst rest) h.kind_ne

/-- A source text is read as its token, where no separator follows. -/
theorem Legal.leftToRightFrom_source {token : Token} (h : token.Legal) {rest : List Char}
    (hrest : rest.head?.any isSeparating = false) (offset : Nat) :
    leftToRightFrom offset (token.source ++ rest) =
      (leftToRightFrom (offset + utf8Size token.source) rest).map
        ({ token with offset } :: ·) := by
  obtain ⟨front, gap, hsource, hgap, hfirst⟩ := h.first?_source
  have hfront : utf8Size (token.source ++ rest) - utf8Size (gap ++ rest) = utf8Size front := by
    rw [hsource, List.append_assoc, utf8Size_append, Nat.add_sub_cancel]
  have htoken : (⟨token.kind, String.ofList token.text.toList, offset⟩ : Token) =
      { token with offset } := by
    rw [String.ofList_toList]
  calc leftToRightFrom offset (token.source ++ rest)
    _ = (leftToRightFrom (offset + utf8Size front) (gap ++ rest)).map
          ({ token with offset } :: ·) := by
        rw [leftToRightFrom_of_some (hfirst rest), hfront, htoken]
        simp only [if_neg h.kind_ne]
    _ = (leftToRightFrom (offset + utf8Size token.source) rest).map
          ({ token with offset } :: ·) := by
        rw [leftToRightFrom_separators hgap hrest, hsource, utf8Size_append, Nat.add_assoc]

end Token

/-! ## A row of source texts -/

section

variable {tokens : List Token}

/-- A row of source texts does not begin with a separator, either. -/
theorem head?_flatMap_source (h : ∀ token ∈ tokens, token.Legal) :
    (tokens.flatMap Token.source).head?.any isSeparating = false := by
  cases tokens with
  | nil => rfl
  | cons token tokens =>
    rw [List.forall_mem_cons] at h
    rw [List.flatMap_cons]
    exact h.1.head?_source _

/-- A row of source texts is read as the row of their tokens, from any byte on. -/
theorem leftToRightFrom_flatMap_source (h : ∀ token ∈ tokens, token.Legal) (offset : Nat) :
    leftToRightFrom offset (tokens.flatMap Token.source) =
      .ok (Token.placedFrom offset tokens) := by
  induction tokens generalizing offset with
  | nil => exact leftToRightFrom_nil offset
  | cons token tokens ih =>
    rw [List.forall_mem_cons] at h
    obtain ⟨htoken, htokens⟩ := h
    have hhead := head?_flatMap_source htokens
    rw [List.flatMap_cons, htoken.leftToRightFrom_source hhead, ih htokens,
      Token.placedFrom_cons]
    rfl

/-- A row of source texts is read as the row of their tokens, each at the byte at which its source
text starts. -/
theorem tokenize_source (h : ∀ token ∈ tokens, token.Legal) :
    tokenize (String.ofList (tokens.flatMap Token.source)) =
      .ok (Token.placedFrom 0 tokens) := by
  rw [tokenize_eq_ok_iff, leftToRight, String.toList_ofList]
  exact leftToRightFrom_flatMap_source h 0

end

/-- Symbols that could merge, a name spelled like an operator, and quoted texts side by side. -/
theorem tokenize_source_of_adjacent :
    tokenize "! != \x7bor,'é (and '''or and,)" =
      .ok [⟨.operator, "!", 0⟩, ⟨.operator, "!=", 2⟩, ⟨.opener, "\x7b", 5⟩, ⟨.word, "or", 6⟩,
        ⟨.literal, "é (and ", 9⟩, ⟨.literal, "", 19⟩, ⟨.operator, "or", 21⟩, ⟨.word, "and", 24⟩,
        ⟨.closer, ")", 28⟩] := by
  have hlegal : ∀ token ∈ ([⟨.operator, "!", 7⟩, ⟨.operator, "!=", 7⟩, ⟨.opener, "\x7b", 7⟩,
      ⟨.word, "or", 7⟩, ⟨.literal, "é (and ", 7⟩, ⟨.literal, "", 7⟩, ⟨.operator, "or", 7⟩,
      ⟨.word, "and", 7⟩, ⟨.closer, ")", 7⟩] : List Token), token.Legal := by
    decide +kernel
  have hread := tokenize_source hlegal
  simpa [Token.placedFrom, Token.source, Char.utf8Size] using hread

end PredicateExpr
