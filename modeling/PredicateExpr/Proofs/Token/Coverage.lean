import Mathlib.Tactic.Common
import PredicateExpr.Proofs.Outcome
import PredicateExpr.Proofs.Token.Beginnings
import PredicateExpr.Proofs.Token.LeftToRight
import PredicateExpr.Token.Span

/-!
# Tokens cover their text

A text that is read to its end is cut into the spans of its tokens, with nothing but separators
between them (`tokenize_covers`). `LaidOut` describes such a text from left to right; the statements
about byte positions are read off it.
-/

namespace PredicateExpr

open Text
open Token.Kind (isSeparating)

/-! ## Spans of tokens -/

namespace Token

/-- The span of a token is the stretch of its extent. -/
theorem Extent.spanAt_eq {kind : Kind} {stretch text rest : List Char}
    (h : Extent kind stretch text rest) (offset : Nat) :
    spanAt ⟨kind, String.ofList text, offset⟩ (stretch ++ rest) = stretch := by
  cases h with
  | number hdecimal =>
    obtain ⟨d, tail, rfl, hd⟩ := hdecimal.exists_cons
    have hquote : d ≠ '\x27' := (begins_of_isDecimalDigit hd).2.2.2.2.2
    simp [spanAt, hquote]
  | _ => simp [spanAt]

end Token

/-! ## Texts from left to right -/

/-- A text that starts at a given byte is made of the spans of some tokens, in order, and of
separators. -/
inductive LaidOut : (offset : Nat) → List Char → List Token → Prop
  | nil {offset : Nat} : LaidOut offset [] []
  | separators {offset : Nat} {stretch rest : List Char} {tokens : List Token} :
      (∀ c ∈ stretch, isSeparating c = true) → LaidOut (offset + utf8Size stretch) rest tokens →
      LaidOut offset (stretch ++ rest) tokens
  | token {token : Token} {stretch rest : List Char} {tokens : List Token} :
      token.kind ≠ .separator → stretch ≠ [] → token.spanAt (stretch ++ rest) = stretch →
      LaidOut (token.offset + utf8Size stretch) rest tokens →
      LaidOut token.offset (stretch ++ rest) (token :: tokens)

/-- A text that is read from left to right is laid out. -/
theorem laidOut_of_leftToRightFrom {offset : Nat} {cs : List Char} {tokens : List Token}
    (h : leftToRightFrom offset cs = .ok tokens) : LaidOut offset cs tokens := by
  fun_induction leftToRightFrom offset cs generalizing tokens with
  | case1 offset =>
    cases h
    exact .nil
  | case2 => cases h
  | case3 offset cs hne kind text rest hfirst ih =>
    obtain ⟨following, hfollowing, rfl⟩ := map_eq_ok_iff.mp h
    obtain ⟨stretch, rfl, hextent⟩ := Token.first?_eq_some_iff.mp hfirst
    have hlaid := ih hfollowing
    rw [utf8Size_append, Nat.add_sub_cancel] at hlaid
    split
    · rename_i hseparator
      subst hseparator
      cases hextent with
      | separator hrun => exact .separators hrun.all hlaid
    · rename_i hseparator
      exact @LaidOut.token ⟨kind, String.ofList text, offset⟩ _ _ _ hseparator hextent.ne_nil
        (hextent.spanAt_eq offset) hlaid

/-! ## Byte positions -/

/-- A character of a text in two parts stands in the first part or in the second. -/
theorem mem_or_of_append_eq {stretch rest before after : List Char} {c : Char}
    (h : stretch ++ rest = before ++ c :: after) :
    (c ∈ stretch ∧ utf8Size before < utf8Size stretch) ∨
      ∃ between, before = stretch ++ between ∧ rest = between ++ c :: after := by
  obtain ⟨between, hbefore, hrest⟩ | ⟨left, rfl, hleft⟩ := List.append_eq_append_iff.mp h
  · exact .inr ⟨between, hbefore, hrest⟩
  · cases left with
    | nil => exact .inr ⟨[], by simp, hleft.symm⟩
    | cons d left =>
      cases hleft
      have hpos := c.utf8Size_pos
      refine .inl ⟨by simp, ?_⟩
      rw [utf8Size_append, utf8Size_cons]
      omega

/-- A stretch at the beginning of a text that is no larger than some other one is a beginning of
it. -/
theorem exists_between {stretch rest before after : List Char}
    (h : before ++ after = stretch ++ rest) (hle : utf8Size stretch ≤ utf8Size before) :
    ∃ between, before = stretch ++ between ∧ rest = between ++ after := by
  rcases List.append_eq_append_iff.mp h with ⟨left, rfl, rfl⟩ | ⟨between, hbefore, hrest⟩
  · have hleft : left = [] := by
      by_contra hne
      have hpos := utf8Size_pos hne
      rw [utf8Size_append] at hle
      omega
    exact ⟨[], by simp [hleft], by simp [hleft]⟩
  · exact ⟨between, hbefore, hrest⟩

namespace LaidOut

variable {offset : Nat} {cs text : List Char} {tokens : List Token}

/-- No token starts before the text does. -/
theorem le_offset (h : LaidOut offset cs tokens) : ∀ token ∈ tokens, offset ≤ token.offset := by
  induction h with
  | nil => simp
  | separators _ _ ih => exact fun token hmem => Nat.le_of_add_right_le (ih token hmem)
  | token _ _ _ _ ih =>
    rw [List.forall_mem_cons]
    exact ⟨Nat.le_refl _, fun token hmem => Nat.le_of_add_right_le (ih token hmem)⟩

/-- The span of a token is the stretch laid out for it. -/
theorem span_eq {token : Token} {stretch rest : List Char}
    (htext : dropBytes? token.offset text = some (stretch ++ rest))
    (hspan : token.spanAt (stretch ++ rest) = stretch) : token.span text = stretch := by
  rw [Token.span, htext, Option.getD_some, hspan]

/-- Each token is no separator, and its span stands at its offset. -/
theorem dropBytes?_offset (h : LaidOut offset cs tokens)
    (htext : dropBytes? offset text = some cs) :
    ∀ token ∈ tokens, token.kind ≠ .separator ∧
      ∃ rest, dropBytes? token.offset text = some (token.span text ++ rest) := by
  induction h with
  | nil => simp
  | separators _ _ ih => exact ih (dropBytes?_add htext)
  | @token token stretch rest _ hkind _ hspan _ ih =>
    rw [List.forall_mem_cons]
    refine ⟨⟨hkind, rest, ?_⟩, ih (dropBytes?_add htext)⟩
    rw [htext, span_eq htext hspan]

/-- Each token starts behind the beginning of those before it, and not before their spans end. -/
theorem pairwise_offset (h : LaidOut offset cs tokens)
    (htext : dropBytes? offset text = some cs) :
    tokens.Pairwise fun earlier later =>
      earlier.offset < later.offset ∧ earlier.stop text ≤ later.offset := by
  induction h with
  | nil => exact .nil
  | separators _ _ ih => exact ih (dropBytes?_add htext)
  | token _ hstretch hspan hlaid ih =>
    have hpos := utf8Size_pos hstretch
    refine .cons (fun later hmem => ?_) (ih (dropBytes?_add htext))
    have hle := hlaid.le_offset later hmem
    rw [Token.stop, span_eq htext hspan]
    exact ⟨by omega, hle⟩

/-- A character that is no separator stands inside the span of a token. -/
theorem exists_token (h : LaidOut offset cs tokens) (htext : dropBytes? offset text = some cs)
    {before after : List Char} {c : Char} (hcs : cs = before ++ c :: after)
    (hc : isSeparating c = false) :
    ∃ token ∈ tokens, token.offset ≤ offset + utf8Size before ∧
      offset + utf8Size before < token.stop text := by
  induction h generalizing before with
  | nil => simp at hcs
  | separators hstretch _ ih =>
    obtain ⟨hmem, _⟩ | ⟨between, rfl, hrest⟩ := mem_or_of_append_eq hcs
    · rw [hstretch c hmem] at hc
      cases hc
    · obtain ⟨token, htoken, hspan⟩ := ih (dropBytes?_add htext) hrest
      rw [Nat.add_assoc, ← utf8Size_append] at hspan
      exact ⟨token, htoken, hspan⟩
  | @token token stretch _ _ _ _ hspan _ ih =>
    obtain ⟨_, hlt⟩ | ⟨between, rfl, hrest⟩ := mem_or_of_append_eq hcs
    · refine ⟨token, List.mem_cons_self, Nat.le_add_right _ _, ?_⟩
      rw [Token.stop, span_eq htext hspan]
      omega
    · obtain ⟨later, hlater, hin⟩ := ih (dropBytes?_add htext) hrest
      rw [Nat.add_assoc, ← utf8Size_append] at hin
      exact ⟨later, List.mem_cons_of_mem _ hlater, hin⟩

end LaidOut

/-! ## Scanning by byte positions -/

/-- A scan that moves a byte position along a text never comes to stand inside a character: it
reads what a scan of the rest of the text reads. -/
theorem scanAt_eq_scanFrom (lost : Scan) {cs rest : List Char} {offset : Nat}
    (h : dropBytes? offset cs = some rest) : scanAt lost cs offset = scanFrom offset rest := by
  fun_induction scanFrom offset rest with
  | case1 offset => exact scanAt_of_nil lost h
  | case2 offset rest hne hclosest =>
    obtain ⟨c, rest, rfl⟩ := List.exists_cons_of_ne_nil hne
    rw [scanAt_of_cons lost h, hclosest]
  | case3 offset rest hne kind found hclosest hhere ih =>
    obtain ⟨_, happend⟩ := Token.first?_of_closest? hclosest hhere
    have hnext : dropBytes? (offset + utf8Size found.text) cs = some found.rest := by
      refine dropBytes?_add ?_
      rw [h, happend]
    obtain ⟨c, rest, rfl⟩ := List.exists_cons_of_ne_nil hne
    rw [scanAt_of_cons lost h, hclosest, ← ih hnext]
    exact if_pos hhere
  | case4 offset rest hne kind found hclosest hskipped =>
    obtain ⟨c, rest, rfl⟩ := List.exists_cons_of_ne_nil hne
    rw [scanAt_of_cons lost h, hclosest]
    exact if_neg hskipped

/-- The tokens of a text that is read are no separators, and their spans stand at their offsets,
which are boundaries, one behind the other without overlap. Every character outside the spans is a
separator, so that the whole text was read. In particular no byte position at which the scan goes
on cuts a character in two. -/
theorem tokenize_covers {text : String} {tokens : List Token} (h : tokenize text = .ok tokens) :
    (∀ token ∈ tokens, token.kind ≠ .separator ∧
      ∃ rest, dropBytes? token.offset text.toList = some (token.span text.toList ++ rest)) ∧
    (tokens.Pairwise fun earlier later =>
      earlier.offset < later.offset ∧ earlier.stop text.toList ≤ later.offset) ∧
    (∀ before c after, text.toList = before ++ c :: after → isSeparating c = false →
      ∃ token ∈ tokens, token.offset ≤ utf8Size before ∧
        utf8Size before < token.stop text.toList) ∧
    ∀ lost, scanAt lost text.toList 0 = scan text := by
  have hlaid := laidOut_of_leftToRightFrom (tokenize_eq_ok_iff.mp h)
  have htext : dropBytes? 0 text.toList = some text.toList := dropBytes?_zero _
  refine ⟨hlaid.dropBytes?_offset htext, hlaid.pairwise_offset htext, ?_, ?_⟩
  · intro before c after hcs hc
    have hspan := hlaid.exists_token htext hcs hc
    rwa [Nat.zero_add] at hspan
  · exact fun lost => scanAt_eq_scanFrom lost htext

/-- Characters of two bytes, quotes around separators and a bracket, and tokens with nothing between
them. -/
theorem tokenize_covers_of_quoted :
    tokenize "f 'é, (' -٣.5!=[or x]" = .ok [⟨.word, "f", 0⟩, ⟨.literal, "é, (", 2⟩,
        ⟨.literal, "-٣.5", 10⟩, ⟨.operator, "!=", 15⟩, ⟨.opener, "[", 17⟩, ⟨.operator, "or", 18⟩,
        ⟨.word, "x", 21⟩, ⟨.closer, "]", 22⟩] ∧
      (∃ rest, dropBytes? 2 "f 'é, (' -٣.5!=[or x]".toList = some ("'é, ('".toList ++ rest)) ∧
      ∀ lost, scanAt lost "f 'é, (' -٣.5!=[or x]".toList 0 = scan "f 'é, (' -٣.5!=[or x]" := by
  have htokens : tokenize "f 'é, (' -٣.5!=[or x]" = .ok [⟨.word, "f", 0⟩,
      ⟨.literal, "é, (", 2⟩, ⟨.literal, "-٣.5", 10⟩, ⟨.operator, "!=", 15⟩, ⟨.opener, "[", 17⟩,
      ⟨.operator, "or", 18⟩, ⟨.word, "x", 21⟩, ⟨.closer, "]", 22⟩] := by decide +kernel
  have hspan : Token.span ⟨.literal, "é, (", 2⟩ "f 'é, (' -٣.5!=[or x]".toList =
      "'é, ('".toList := by decide +kernel
  obtain ⟨hspans, _, _, hscan⟩ := tokenize_covers htokens
  refine ⟨htokens, ?_, hscan⟩
  rw [← hspan]
  exact (hspans ⟨.literal, "é, (", 2⟩ (by simp)).2

end PredicateExpr
