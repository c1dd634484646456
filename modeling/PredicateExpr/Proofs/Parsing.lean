import PredicateExpr.Proofs.Nesting.Completeness
import PredicateExpr.Proofs.Nesting.Soundness

/-!
# Parsing is deriving

`parse` scans tokens bracket by bracket and folds the phrase of each level pass by pass; the
grammar knows neither. Both describe the same expressions with the same trees, and the two limits
on depth are all that `parse` asks for beyond the grammar (`parse_eq_ok_iff`).
-/

namespace PredicateExpr

open Grammar (Derives significant withinGroups)

/-- Tokens parse to a tree exactly when the grammar derives it from them, separators apart, and
both limits on depth are kept. -/
theorem parse_eq_ok_iff {tokens : List Token} {t : Tree Atom} :
    parse tokens = .ok t ↔
      Derives .expression (significant tokens) t ∧ withinGroups 0 tokens = true ∧
        t.height ≤ maxDepth := by
  rw [Grammar.withinGroups_eq_true_iff]
  constructor
  · exact derives_of_parse
  · rintro ⟨hderives, hdeep, hle⟩
    rw [← parse_significant]
    rw [← Grammar.tooDeep?_significant] at hdeep
    rcases hderives.parse_cases with ⟨_, _, hparse⟩ | ⟨token, hstuck, _⟩ | ⟨hlt, _⟩
    · exact hparse
    · rw [hdeep] at hstuck
      cases hstuck
    · exact absurd hle (Nat.not_le.mpr hlt)

end PredicateExpr
