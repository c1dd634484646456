import PredicateExpr.Phrase

/-!
# Phrases read from left to right

A phrase can be read in one go, by precedence climbing: after an operand, an operator that binds at
least as tightly as required takes the operand as its left one and reads its right one, in which it
requires its own strength. Operands and binary operators have to take turns, and negations stand in
front of operands.
-/

namespace PredicateExpr

/-- How tightly a connective binds. -/
def Connective.strength : Connective → Nat
  | .or => 0
  | .xor => 1
  | .and => 2

namespace Phrase

/-- The operand at the beginning of a phrase, with the negations in front of it, and the rest. -/
def leading? : Phrase → Option (Tree Atom × Phrase)
  | .operand o :: rest => some (o.tree, rest)
  | .operator .not _ :: rest => (leading? rest).map fun found => (.not found.1, found.2)
  | _ => none

/-- What follows the first operand is shorter than the phrase. -/
theorem length_lt_of_leading? {phrase rest : Phrase} {t : Tree Atom}
    (h : leading? phrase = some (t, rest)) : rest.length < phrase.length := by
  fun_induction leading? phrase generalizing t with
  | case1 o tail => cases h; simp
  | case2 offset tail ih =>
    obtain ⟨found, hfound, heq⟩ := Option.map_eq_some_iff.mp h
    cases heq
    exact Nat.lt_succ_of_lt (ih hfound)
  | case3 => cases h

/-- Reads on after a left operand, through operators of at least a given strength. The rest starts
with a weaker operator, or with what is none. -/
def climb? (strength : Nat) (left : Tree Atom) (phrase : Phrase) :
    Option { found : Tree Atom × Phrase // found.2.length ≤ phrase.length } :=
  match phrase with
  | .operator (.binary c) offset :: rest =>
    if c.strength < strength then
      some ⟨(left, .operator (.binary c) offset :: rest), Nat.le_refl _⟩
    else
      match hleading : leading? rest with
      | none => none
      | some (first, rest') =>
        have hlt : rest'.length < rest.length := length_lt_of_leading? hleading
        match climb? c.strength first rest' with
        | none => none
        | some ⟨(right, rest''), hright⟩ =>
          have hle : rest''.length ≤ rest'.length := hright
          match climb? strength (.join c left right) rest'' with
          | none => none
          | some ⟨found, hfound⟩ => some ⟨found, by simp only [List.length_cons]; omega⟩
  | phrase => some ⟨(left, phrase), Nat.le_refl _⟩
termination_by phrase.length
decreasing_by all_goals simp only [List.length_cons]; omega

/-- The expression that a phrase is, read from left to right. -/
def climbing? : Phrase → Option (Tree Atom)
  | [] => some .empty
  | phrase =>
    match leading? phrase with
    | none => none
    | some (first, rest) =>
      match climb? 0 first rest with
      | some ⟨(t, []), _⟩ => some t
      | _ => none

end Phrase

end PredicateExpr
