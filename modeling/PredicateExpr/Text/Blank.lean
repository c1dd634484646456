import PredicateExpr.Text.CodePoints

/-!
# Blanks

A blank is a character with the Unicode property White_Space. Blanks separate tokens, end an
operator word, and are dropped at both ends of the two halves of an assignment. The class is wider
than the four characters that `Char.isWhitespace` knows.
-/

namespace PredicateExpr.Text

/-- The code points with the property White_Space. -/
def blanks : CodePoints where
  ranges := [(0x0009, 0x000D), (0x0020, 0x0020), (0x0085, 0x0085), (0x00A0, 0x00A0),
    (0x1680, 0x1680), (0x2000, 0x200A), (0x2028, 0x2029), (0x202F, 0x202F), (0x205F, 0x205F),
    (0x3000, 0x3000)]

/-- The class of blanks. -/
def isBlank (c : Char) : Bool :=
  blanks.contains c

/-- Drops the blanks at the start. -/
def trimStart (cs : List Char) : List Char :=
  cs.dropWhile isBlank

/-- Drops the blanks at the end. -/
def trimEnd (cs : List Char) : List Char :=
  (trimStart cs.reverse).reverse

/-- Drops the blanks at both ends. -/
def trim (cs : List Char) : List Char :=
  (trimStart (trimStart cs).reverse).reverse

end PredicateExpr.Text
