import PredicateExpr.Proofs.Nesting.Completeness

/-!
# The limits on depth

An expression of the grammar can be too deep in two ways: a bracket may stand inside too many
groups, or the tree may be too tall. These are the only reasons for which it is refused, and neither
limit is off by one (`parse_grammatical`). Where both are exceeded, the one that is noticed first
while reading is reported.

`Grammar.FirstTooDeep` names the bracket that is complained about by what stands before it.
-/

namespace PredicateExpr

open Grammar (Derives Spells groupsAfter significant tooDeep? withinGroups)

namespace Grammar

/-! ## The bracket that is one too many -/

/-- The first opening bracket of an expression that has `maxDepth` groups open around it: all
brackets before it have fewer. -/
def FirstTooDeep (tokens : List Token) (opening : Token) : Prop :=
  ∃ before after, tokens = before ++ opening :: after ∧ opening.kind = .opener ∧
    withinGroups 0 before = true ∧ groupsAfter 0 before = maxDepth

/-- A bracket that finds `maxDepth` or more groups open, and is the first to do so, finds exactly
`maxDepth`: the limit cannot be passed without being reached. -/
theorem exists_split_of_tooDeep? {groups : Nat} {tokens : List Token} {opening : Token}
    (hgroups : groups ≤ maxDepth) (h : tooDeep? groups tokens = some opening) :
    ∃ before after, tokens = before ++ opening :: after ∧ opening.kind = .opener ∧
      withinGroups groups before = true ∧ groupsAfter groups before = maxDepth := by
  induction tokens generalizing groups with
  | nil => cases h
  | cons token tokens ih =>
    rw [tooDeep?] at h
    split at h
    · rename_i hdeep
      cases h
      exact ⟨[], tokens, rfl, hdeep.1, rfl, Nat.le_antisymm hgroups hdeep.2⟩
    · rename_i hhigh
      have hbehind : groupsBehind groups token ≤ maxDepth := by
        unfold groupsBehind
        split
        · rename_i hopener
          have hlt : ¬ maxDepth ≤ groups := fun hle => hhigh ⟨hopener, hle⟩
          omega
        · omega
        · exact hgroups
      obtain ⟨before, after, rfl, hopener, hwithin, hafter⟩ := ih hbehind h
      refine ⟨token :: before, after, rfl, hopener, ?_, hafter⟩
      rw [withinGroups_eq_true_iff] at hwithin ⊢
      rw [tooDeep?, if_neg hhigh, hwithin]

/-- The bracket that is found too deep is the first with `maxDepth` groups around it. -/
theorem tooDeep?_eq_some_iff {tokens : List Token} {opening : Token} :
    tooDeep? 0 tokens = some opening ↔ FirstTooDeep tokens opening := by
  constructor
  · exact exists_split_of_tooDeep? (Nat.zero_le _)
  · rintro ⟨before, after, rfl, hopener, hwithin, hafter⟩
    rw [withinGroups_eq_true_iff] at hwithin
    rw [tooDeep?_append, hwithin, Option.none_or, hafter, tooDeep?, if_pos ⟨hopener, Nat.le_refl _⟩]

/-! ## Deep expressions -/

/-- An atom stays one in any number of groups. -/
theorem Derives.enclosed {openings closings ts : List Token} {t : Tree Atom}
    (hopenings : ∀ token ∈ openings, token.kind = .opener)
    (hclosings : ∀ token ∈ closings, token.kind = .closer)
    (hlength : openings.length = closings.length) (h : Derives .atom ts t) :
    Derives .atom (openings ++ ts ++ closings) t := by
  induction openings generalizing closings with
  | nil =>
    rw [List.length_nil, eq_comm, List.length_eq_zero_iff] at hlength
    rwa [hlength, List.append_nil]
  | cons opening openings ih =>
    obtain rfl | ⟨inner, closing, rfl⟩ := closings.eq_nil_or_concat
    · cases hlength
    · rw [List.concat_eq_append] at hclosings hlength ⊢
      rw [List.forall_mem_cons] at hopenings
      rw [List.forall_mem_append, List.forall_mem_singleton] at hclosings
      rw [List.length_cons, List.length_append, List.length_singleton,
        Nat.add_right_cancel_iff] at hlength
      have hinner := ih hopenings.2 hclosings.1 hlength
      rw [List.cons_append, List.cons_append, ← List.append_assoc, ← List.cons_append]
      exact .group hopenings.1 hclosings.2 hinner.toExpression

/-- Any number of negations may stand in front of an atom, and each adds a level. -/
theorem Derives.exists_negated {operators ts : List Token} {t : Tree Atom}
    (hoperators : ∀ token ∈ operators, Spells token .not) (h : Derives .atom ts t) :
    ∃ negated, Derives .negation (operators ++ ts) negated ∧
      negated.height = operators.length + t.height := by
  induction operators with
  | nil => exact ⟨t, .atom h, (Nat.zero_add _).symm⟩
  | cons operator operators ih =>
    rw [List.forall_mem_cons] at hoperators
    obtain ⟨negated, hderives, hheight⟩ := ih hoperators.2
    refine ⟨.not negated, .not hoperators.1 hderives, ?_⟩
    rw [Tree.height, hheight, List.length_cons]
    omega

end Grammar

/-! ## Refusals -/

/-- An expression of the grammar parses to its tree if both limits on depth are kept. Otherwise it
is refused for one that is not kept: at the first bracket inside too many groups, or because its
tree is too tall. -/
theorem parse_grammatical {tokens : List Token} {t : Tree Atom}
    (h : Derives .expression (significant tokens) t) :
    (withinGroups 0 tokens = true ∧ t.height ≤ maxDepth → parse tokens = .ok t) ∧
      (¬ (withinGroups 0 tokens = true ∧ t.height ≤ maxDepth) →
        (∃ opening, Grammar.FirstTooDeep tokens opening ∧
          parse tokens = .error (.groupsTooDeep opening.offset)) ∨
        (maxDepth < t.height ∧ ∃ offset, parse tokens = .error (.operatorsTooDeep offset))) := by
  have hcases := h.parse_cases
  rw [Grammar.tooDeep?_significant, parse_significant] at hcases
  rw [Grammar.withinGroups_eq_true_iff]
  rcases hcases with ⟨hdeep, hle, hparse⟩ | ⟨opening, hdeep, hparse⟩ | ⟨hlt, hparse⟩
  · exact ⟨fun _ => hparse, fun hlimits => absurd ⟨hdeep, hle⟩ hlimits⟩
  · refine ⟨fun hlimits => ?_, fun _ => .inl ⟨opening, ?_, hparse⟩⟩
    · rw [hdeep] at hlimits
      cases hlimits.1
    · exact Grammar.tooDeep?_eq_some_iff.mp hdeep
  · exact ⟨fun hlimits => absurd hlimits.2 (Nat.not_le.mpr hlt), fun _ => .inr ⟨hlt, hparse⟩⟩

/-! ## At the limits -/

/-- A name inside `n` groups. -/
def nestedName (n : Nat) : List Token :=
  (List.range n).map (⟨.opener, "(", ·⟩) ++ [⟨.word, "a", n⟩] ++
    (List.range n).map (⟨.closer, ")", n + 1 + ·⟩)

/-- A name behind `n` negations. -/
def negatedName (n : Nat) : List Token :=
  (List.range n).map (⟨.operator, "!", ·⟩) ++ [⟨.word, "a", n⟩]

/-- A name inside groups is this name, however many there are. -/
theorem derives_nestedName (n : Nat) :
    Derives .expression (significant (nestedName n)) (.leaf ⟨"a", []⟩) := by
  have hname : Derives .atom [⟨.word, "a", n⟩] (.leaf ⟨"a", []⟩) := .leaf rfl (by simp)
  have hnested : Derives .atom (nestedName n) (.leaf ⟨"a", []⟩) :=
    .enclosed (by simp) (by simp) (by simp) hname
  have hkeep : significant (nestedName n) = nestedName n :=
    List.filter_eq_self.mpr (by simp [nestedName, or_imp, forall_and])
  rw [hkeep]
  exact hnested.toExpression

/-- A name behind negations is an expression with a level for each of them and one for the name. -/
theorem exists_derives_negatedName (n : Nat) :
    ∃ t, Derives .expression (significant (negatedName n)) t ∧ t.height = n + 1 := by
  have hname : Derives .atom [⟨.word, "a", n⟩] (.leaf ⟨"a", []⟩) := .leaf rfl (by simp)
  have hbang : Operator.ofText? "!" = some .not := by decide
  have hbangs : ∀ token ∈ (List.range n).map (⟨.operator, "!", ·⟩), Spells token .not :=
    List.forall_mem_map.mpr fun _ _ => Grammar.spells_iff.mpr ⟨rfl, hbang⟩
  obtain ⟨t, hderives, hheight⟩ := hname.exists_negated hbangs
  have hkeep : significant (negatedName n) = negatedName n :=
    List.filter_eq_self.mpr (by simp [negatedName, or_imp, forall_and])
  rw [hkeep]
  refine ⟨t, hderives.toExpression, ?_⟩
  rw [hheight, List.length_map, List.length_range]
  rfl

/-- As many groups around a name as are allowed, one group more, and one negation more than the
limit on heights leaves room for. -/
theorem parse_grammatical_at_limits :
    (∀ n ∈ [256, 257], Derives .expression (significant (nestedName n)) (.leaf ⟨"a", []⟩)) ∧
      parse (nestedName 256) = .ok (.leaf ⟨"a", []⟩) ∧
      parse (nestedName 257) = .error (.groupsTooDeep 256) ∧
      ∃ offset, parse (negatedName 256) = .error (.operatorsTooDeep offset) := by
  refine ⟨fun n _ => derives_nestedName n, ?_, ?_, ?_⟩
  · exact (parse_grammatical (derives_nestedName 256)).1 ⟨by decide +kernel, by decide⟩
  · have hdeep : tooDeep? 0 (nestedName 257) = some ⟨.opener, "(", 256⟩ := by decide +kernel
    have hlimits : ¬ (withinGroups 0 (nestedName 257) = true ∧
        (Tree.leaf (⟨"a", []⟩ : Atom)).height ≤ maxDepth) := by
      rw [Grammar.withinGroups_eq_true_iff, hdeep]
      simp
    obtain ⟨opening, hfirst, hparse⟩ | ⟨hlt, _⟩ :=
      (parse_grammatical (derives_nestedName 257)).2 hlimits
    · rw [← Grammar.tooDeep?_eq_some_iff, hdeep] at hfirst
      cases hfirst
      exact hparse
    · exact absurd hlt (by decide)
  · have hwithin : tooDeep? 0 (negatedName 256) = none := by decide +kernel
    obtain ⟨t, hderives, hheight⟩ := exists_derives_negatedName 256
    have hlimits : ¬ (withinGroups 0 (negatedName 256) = true ∧ t.height ≤ maxDepth) := by
      rw [hheight]
      simp [maxDepth]
    obtain ⟨opening, hfirst, _⟩ | ⟨_, hparse⟩ := (parse_grammatical hderives).2 hlimits
    · rw [← Grammar.tooDeep?_eq_some_iff, hwithin] at hfirst
      cases hfirst
    · exact hparse

end PredicateExpr
