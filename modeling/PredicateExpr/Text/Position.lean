import PredicateExpr.Text.Utf8

/-!
# Byte positions

A byte position of a text lies on a boundary when it does not cut a character in two.
`dropBytes?` gives what stands behind a position, and nothing for a position that is no boundary;
the positions with an answer are the sizes of the beginnings of the text (`dropBytes?_eq_some_iff`).
-/

namespace PredicateExpr.Text

/-- What stands behind the first `n` bytes of a text, if they end between two characters or at the
end of the text. -/
def dropBytes? : (n : Nat) → List Char → Option (List Char)
  | 0, cs => some cs
  | _ + 1, [] => none
  | n + 1, c :: cs =>
    if c.utf8Size ≤ n + 1 then dropBytes? (n + 1 - c.utf8Size) cs else none

@[simp] theorem dropBytes?_zero (cs : List Char) : dropBytes? 0 cs = some cs := by
  cases cs <;> rfl

/-- Behind the bytes of a character stands what follows it. -/
theorem dropBytes?_cons (c : Char) (n : Nat) (cs : List Char) :
    dropBytes? (c.utf8Size + n) (c :: cs) = dropBytes? n cs := by
  have hpos := c.utf8Size_pos
  obtain ⟨m, hm⟩ : ∃ m, c.utf8Size + n = m + 1 := ⟨c.utf8Size + n - 1, by omega⟩
  rw [hm, dropBytes?, if_pos (by omega), ← hm, Nat.add_sub_cancel_left]

/-- Behind the bytes of a beginning stands the rest. -/
theorem dropBytes?_append (before : List Char) (n : Nat) (cs : List Char) :
    dropBytes? (utf8Size before + n) (before ++ cs) = dropBytes? n cs := by
  induction before with
  | nil => rw [utf8Size_nil, Nat.zero_add, List.nil_append]
  | cons c before ih => rw [utf8Size_cons, Nat.add_assoc, List.cons_append, dropBytes?_cons, ih]

/-- A position is a boundary when it is the size of a beginning of the text. -/
theorem dropBytes?_eq_some_iff {n : Nat} {cs rest : List Char} :
    dropBytes? n cs = some rest ↔ ∃ before, before ++ rest = cs ∧ utf8Size before = n := by
  constructor
  · intro h
    fun_induction dropBytes? n cs with
    | case1 cs =>
      cases h
      exact ⟨[], rfl, rfl⟩
    | case2 => cases h
    | case3 n c cs hle ih =>
      obtain ⟨before, rfl, hsize⟩ := ih h
      exact ⟨c :: before, rfl, by rw [utf8Size_cons, hsize]; omega⟩
    | case4 => cases h
  · rintro ⟨before, rfl, rfl⟩
    have happend := dropBytes?_append before 0 rest
    rwa [Nat.add_zero, dropBytes?_zero] at happend

/-- A position can be moved on by a stretch that stands there. -/
theorem dropBytes?_add {n : Nat} {cs stretch rest : List Char}
    (h : dropBytes? n cs = some (stretch ++ rest)) :
    dropBytes? (n + utf8Size stretch) cs = some rest := by
  obtain ⟨before, rfl, rfl⟩ := dropBytes?_eq_some_iff.mp h
  exact dropBytes?_eq_some_iff.mpr ⟨before ++ stretch, by simp, utf8Size_append _ _⟩

/-- What stands behind a position takes up the other bytes. -/
theorem utf8Size_of_dropBytes? {n : Nat} {cs rest : List Char} (h : dropBytes? n cs = some rest) :
    utf8Size cs = n + utf8Size rest := by
  obtain ⟨before, rfl, rfl⟩ := dropBytes?_eq_some_iff.mp h
  exact utf8Size_append _ _

end PredicateExpr.Text
