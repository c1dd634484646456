/-!
# Sets of code points

A character class that a standard lists is a table of closed ranges of code points in increasing
order. This module holds the type of such tables and the membership test, which stops at the first
range beyond the character; `CodePoints.contains_iff` says that nothing is missed. The tables
themselves stand in the modules named for the class they describe.
-/

namespace PredicateExpr.Text

/-- A set of code points, given as closed ranges in increasing order. -/
structure CodePoints where
  /-- The first and the last code point of each range. -/
  ranges : List (Nat × Nat)
  /-- No range starts before an earlier one. -/
  increasing : ranges.Pairwise fun earlier later => earlier.1 ≤ later.1 := by decide

/-- Whether one of the ranges, of which none starts before an earlier one, holds a code point. -/
def inRanges (code : Nat) : List (Nat × Nat) → Bool
  | [] => false
  | range :: ranges => range.1 ≤ code && (code ≤ range.2 || inRanges code ranges)

/-- A character belongs to a set when its code point lies in one of the ranges. -/
def CodePoints.contains (set : CodePoints) (c : Char) : Bool :=
  inRanges c.toNat set.ranges

/-- Where the ranges are in order, nothing is missed by stopping at the first range beyond the code
point. -/
theorem inRanges_iff {code : Nat} {ranges : List (Nat × Nat)}
    (h : ranges.Pairwise fun earlier later => earlier.1 ≤ later.1) :
    inRanges code ranges = true ↔ ∃ range ∈ ranges, range.1 ≤ code ∧ code ≤ range.2 := by
  induction ranges with
  | nil => simp [inRanges]
  | cons range ranges ih =>
    rw [List.pairwise_cons] at h
    simp only [inRanges, Bool.and_eq_true, Bool.or_eq_true, decide_eq_true_eq, ih h.2,
      List.mem_cons, exists_eq_or_imp]
    constructor
    · rintro ⟨hlo, hhi | hlater⟩
      · exact .inl ⟨hlo, hhi⟩
      · exact .inr hlater
    · rintro (⟨hlo, hhi⟩ | ⟨later, hmem, hlo, hhi⟩)
      · exact ⟨hlo, .inl hhi⟩
      · exact ⟨Nat.le_trans (h.1 later hmem) hlo, .inr ⟨later, hmem, hlo, hhi⟩⟩

/-- Membership, read off the ranges. -/
theorem CodePoints.contains_iff {set : CodePoints} {c : Char} :
    set.contains c = true ↔ ∃ range ∈ set.ranges, range.1 ≤ c.toNat ∧ c.toNat ≤ range.2 :=
  inRanges_iff set.increasing

end PredicateExpr.Text
