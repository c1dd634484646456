/-!
# Sizes in bytes

Positions in an expression are counted in bytes of its UTF-8 encoding. Text is handled as a list of
characters, and `utf8Size` is the number of bytes that such a list takes.
-/

namespace PredicateExpr.Text

/-- The number of bytes of the UTF-8 encoding of a text. -/
def utf8Size : List Char → Nat
  | [] => 0
  | c :: cs => c.utf8Size + utf8Size cs

@[simp] theorem utf8Size_nil : utf8Size [] = 0 := rfl

@[simp] theorem utf8Size_cons (c : Char) (cs : List Char) :
    utf8Size (c :: cs) = c.utf8Size + utf8Size cs := rfl

@[simp] theorem utf8Size_append (cs ds : List Char) :
    utf8Size (cs ++ ds) = utf8Size cs + utf8Size ds := by
  induction cs with
  | nil => simp
  | cons c cs ih => simp [ih, Nat.add_assoc]

/-- Only the empty text takes no bytes. -/
theorem utf8Size_pos {cs : List Char} (h : cs ≠ []) : 0 < utf8Size cs := by
  cases cs with
  | nil => exact absurd rfl h
  | cons c cs => have := c.utf8Size_pos; simp only [utf8Size_cons]; omega

end PredicateExpr.Text
