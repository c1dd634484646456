import PredicateExpr.Text.Position
import PredicateExpr.Token.Lexer

/-!
# Tokens in their text

A token takes up a stretch of the text that it was read from, its span: the text of the token, with
the quotes if it is a quoted literal. `Token.span` finds it by the offset of the token alone.

`scanAt` reads a text by moving a byte position along it, instead of going on with the rest of the
text. Such a scan might come to stand inside a character; what it would do there is a parameter.
-/

namespace PredicateExpr

open Text

namespace Token

/-- The stretch that a token takes up at the beginning of a text: its own text, in quotes if it is
a literal and a quote stands there. -/
def spanAt (token : Token) (here : List Char) : List Char :=
  if token.kind = .literal ∧ here.head? = some '\x27' then
    '\x27' :: token.text.toList ++ ['\x27']
  else
    token.text.toList

/-- The stretch that a token takes up in a text. -/
def span (token : Token) (cs : List Char) : List Char :=
  token.spanAt ((dropBytes? token.offset cs).getD [])

/-- The byte position behind a token in a text. -/
def stop (token : Token) (cs : List Char) : Nat :=
  token.offset + utf8Size (token.span cs)

/-- The closest match is not empty where nothing is skipped. -/
theorem utf8Size_pos_of_closest? {cs : List Char} {kind : Kind} {found : Pattern.Match}
    (h : closest? cs = some (kind, found)) (hskipped : found.skipped = []) :
    0 < utf8Size found.text := by
  have happend := Pattern.append_of_find? (find?_of_closest? h)
  have hlt := length_lt_of_closest? h
  rw [hskipped, List.nil_append] at happend
  refine utf8Size_pos ?_
  intro hnil
  rw [hnil, List.nil_append] at happend
  rw [happend] at hlt
  exact Nat.lt_irrefl _ hlt

end Token

/-- Reads a text from a byte position on. The scan ends where nothing stands behind the position,
and it comes to `lost` where the position cuts a character in two. -/
def scanAt (lost : Scan) (cs : List Char) (offset : Nat) : Scan :=
  match _hrest : dropBytes? offset cs with
  | none => lost
  | some [] => ⟨[], none⟩
  | some (c :: rest) =>
    match _hclosest : Token.closest? (c :: rest) with
    | none => ⟨[], some ⟨c :: rest, offset⟩⟩
    | some (kind, found) =>
      if _hskipped : found.skipped = [] then
        (scanAt lost cs (offset + utf8Size found.text)).prepend kind found.text offset
      else
        ⟨[], some ⟨found.skipped, offset⟩⟩
termination_by utf8Size cs - offset
decreasing_by
  have hsize := utf8Size_of_dropBytes? _hrest
  have hrest : 0 < utf8Size (c :: rest) := utf8Size_pos (List.cons_ne_nil _ _)
  have htext := Token.utf8Size_pos_of_closest? _hclosest _hskipped
  omega

/-- A scan by byte positions ends at the end of the text. -/
theorem scanAt_of_nil (lost : Scan) {cs : List Char} {offset : Nat}
    (h : dropBytes? offset cs = some []) : scanAt lost cs offset = ⟨[], none⟩ := by
  rw [scanAt]
  split
  · rename_i hrest
    cases h.symm.trans hrest
  · rfl
  · rename_i hrest
    cases h.symm.trans hrest

/-- Where something stands behind the position, a scan goes on by the closest match. -/
theorem scanAt_of_cons (lost : Scan) {cs rest : List Char} {c : Char} {offset : Nat}
    (h : dropBytes? offset cs = some (c :: rest)) :
    scanAt lost cs offset =
      match Token.closest? (c :: rest) with
      | none => ⟨[], some ⟨c :: rest, offset⟩⟩
      | some (kind, found) =>
        if found.skipped = [] then
          (scanAt lost cs (offset + utf8Size found.text)).prepend kind found.text offset
        else
          ⟨[], some ⟨found.skipped, offset⟩⟩ := by
  rw [scanAt]
  split
  · rename_i hrest
    cases h.symm.trans hrest
  · rename_i hrest
    cases h.symm.trans hrest
  · rename_i hrest
    cases h.symm.trans hrest
    split
    · rename_i hnone
      rw [hnone]
    · rename_i hsome
      rw [hsome]
      rfl

end PredicateExpr
