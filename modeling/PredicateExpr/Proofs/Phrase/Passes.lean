import Mathlib.Tactic.Common
import PredicateExpr.Phrase
import PredicateExpr.Proofs.Outcome

/-!
# What a pass does to a phrase

`Phrase.passFrom` visits the entries of a phrase from right to left and rebuilds the phrase behind
it. `Phrase.Absorbs` says what comes out, read from left to right and without the limit on heights:
every operator of the pass disappears into the operand that it forms, and all other entries stay
where they are. The two descriptions agree as far as the limit allows: a pass that succeeds absorbs
(`absorbs_of_passFrom`), and a phrase that absorbs passes, or else some tree grew too tall
(`foldlM_pass_of_absorbsAll`).
-/

namespace PredicateExpr

/-! ## Operands without a limit -/

namespace Operand

/-- The negation of an operand, however tall. -/
def negated (offset : Nat) (o : Operand) : Operand :=
  ⟨⟨.not o.tree, o.height + 1⟩, offset⟩

/-- Two operands under a connective, however tall. -/
def joined (c : Connective) (l r : Operand) : Operand :=
  ⟨⟨.join c l.tree r.tree, max l.height r.height + 1⟩, l.offset⟩

/-- An operand that remembers the true height of its tree. -/
def Exact (o : Operand) : Prop :=
  o.height = o.tree.height

/-- Accepting leaves an operand as it is, and happens within the limit only. -/
theorem accept_eq_ok_iff {o p : Operand} :
    o.accept = .ok p ↔ o.height ≤ maxDepth ∧ o = p := by
  unfold accept
  split
  · rename_i hlt
    refine ⟨fun h => ?_, fun h => absurd h.1 (Nat.not_le.mpr hlt)⟩
    cases h
  · rename_i hle
    exact ⟨fun h => ⟨Nat.not_lt.mp hle, Except.ok.inj h⟩, fun h => by rw [h.2]⟩

/-- An operand within the limit is accepted. -/
theorem accept_of_le {o : Operand} (h : o.height ≤ maxDepth) : o.accept = .ok o :=
  accept_eq_ok_iff.mpr ⟨h, rfl⟩

/-- An operand beyond the limit is refused where it starts. -/
theorem accept_of_lt {o : Operand} (h : maxDepth < o.height) :
    o.accept = .error (.operatorsTooDeep o.offset) := by
  rw [accept, if_pos h]

/-- The negation of an exact operand is exact. -/
theorem Exact.negated {o : Operand} (h : o.Exact) (offset : Nat) : (o.negated offset).Exact := by
  unfold Exact at h ⊢
  simp only [Operand.negated, Tree.height, h]

/-- Exact operands have an exact join. -/
theorem Exact.joined {l r : Operand} (hl : l.Exact) (hr : r.Exact) (c : Connective) :
    (Operand.joined c l r).Exact := by
  unfold Exact at hl hr ⊢
  simp only [Operand.joined, Tree.height, hl, hr]

end Operand

namespace Phrase

/-! ## Operands of a phrase -/

/-- Every operand of a phrase is within the limit. -/
def Low (phrase : Phrase) : Prop :=
  ∀ o, Piece.operand o ∈ phrase → o.height ≤ maxDepth

/-- Every operand of a phrase remembers the true height of its tree. -/
def Exact (phrase : Phrase) : Prop :=
  ∀ o, Piece.operand o ∈ phrase → o.Exact

theorem low_nil : Low [] := by
  intro o h
  cases h

theorem low_operand_cons {o : Operand} {phrase : Phrase} :
    Low (.operand o :: phrase) ↔ o.height ≤ maxDepth ∧ Low phrase := by
  simp [Low, or_imp, forall_and]

theorem low_operator_cons {op : Operator} {offset : Nat} {phrase : Phrase} :
    Low (.operator op offset :: phrase) ↔ Low phrase := by
  simp [Low]

theorem operator_mem_operand_cons {op : Operator} {offset : Nat} {o : Operand} {phrase : Phrase} :
    Piece.operator op offset ∈ Piece.operand o :: phrase ↔ Piece.operator op offset ∈ phrase := by
  simp

theorem low_append {p q : Phrase} : Low (p ++ q) ↔ Low p ∧ Low q := by
  simp [Low, or_imp, forall_and]

theorem exact_nil : Exact [] := by
  intro o h
  cases h

theorem exact_operand_cons {o : Operand} {phrase : Phrase} :
    Exact (.operand o :: phrase) ↔ o.Exact ∧ Exact phrase := by
  simp [Exact, or_imp, forall_and]

theorem exact_operator_cons {op : Operator} {offset : Nat} {phrase : Phrase} :
    Exact (.operator op offset :: phrase) ↔ Exact phrase := by
  simp [Exact]

theorem exact_append {p q : Phrase} : Exact (p ++ q) ↔ Exact p ∧ Exact q := by
  simp [Exact, or_imp, forall_and]

/-! ## One pass -/

/-- The second phrase is what remains of the first one when every operator `op` has taken its
operands. -/
inductive Absorbs : Operator → Phrase → Phrase → Prop
  /-- Nothing remains of nothing. -/
  | nil {op : Operator} : Absorbs op [] []
  /-- An operand that no operator takes stays. -/
  | operand {op : Operator} {p q : Phrase} (o : Operand) :
      Absorbs op p q → Absorbs op (.operand o :: p) (.operand o :: q)
  /-- Other operators stay. -/
  | other {op other : Operator} {p q : Phrase} (offset : Nat) :
      other ≠ op → Absorbs op p q →
      Absorbs op (.operator other offset :: p) (.operator other offset :: q)
  /-- A negation takes the operand right behind it. -/
  | negate {p q : Phrase} {o : Operand} (offset : Nat) :
      Absorbs .not p (.operand o :: q) →
      Absorbs .not (.operator .not offset :: p) (.operand (o.negated offset) :: q)
  /-- A binary operator takes the operands on both sides. -/
  | join {c : Connective} {p q : Phrase} {r : Operand} (l : Operand) (offset : Nat) :
      Absorbs (.binary c) p (.operand r :: q) →
      Absorbs (.binary c) (.operand l :: .operator (.binary c) offset :: p)
        (.operand (.joined c l r) :: q)

/-- Heights only grow, so that what was absorbed within the limit was within it before. -/
theorem Absorbs.low {op : Operator} {p q : Phrase} (h : Absorbs op p q) (hq : Low q) : Low p := by
  induction h with
  | nil => exact low_nil
  | operand o _ ih =>
    rw [low_operand_cons] at hq ⊢
    exact ⟨hq.1, ih hq.2⟩
  | other offset _ _ ih =>
    rw [low_operator_cons] at hq ⊢
    exact ih hq
  | @negate p q o offset _ ih =>
    rw [low_operand_cons] at hq
    rw [low_operator_cons]
    have ho : o.height + 1 ≤ maxDepth := hq.1
    exact ih (low_operand_cons.mpr ⟨by omega, hq.2⟩)
  | @join c p q r l offset _ ih =>
    rw [low_operand_cons] at hq
    rw [low_operand_cons, low_operator_cons]
    have hlr : max l.height r.height + 1 ≤ maxDepth := hq.1
    exact ⟨by omega, ih (low_operand_cons.mpr ⟨by omega, hq.2⟩)⟩

/-- Recorded heights stay true. -/
theorem Absorbs.exact {op : Operator} {p q : Phrase} (h : Absorbs op p q) (hp : Exact p) :
    Exact q := by
  induction h with
  | nil => exact exact_nil
  | operand o _ ih =>
    rw [exact_operand_cons] at hp ⊢
    exact ⟨hp.1, ih hp.2⟩
  | other offset _ _ ih =>
    rw [exact_operator_cons] at hp ⊢
    exact ih hp
  | negate offset _ ih =>
    have h := exact_operand_cons.mp (ih (exact_operator_cons.mp hp))
    exact exact_operand_cons.mpr ⟨h.1.negated offset, h.2⟩
  | join l offset _ ih =>
    rw [exact_operand_cons, exact_operator_cons] at hp
    have h := exact_operand_cons.mp (ih hp.2)
    exact exact_operand_cons.mpr ⟨hp.1.joined h.1 _, h.2⟩

/-- An operator that is left was there before, and it is none that the pass is for. -/
theorem Absorbs.operator_left {op other : Operator} {offset : Nat} {p q : Phrase}
    (h : Absorbs op p q) (hmem : Piece.operator other offset ∈ q) :
    other ≠ op ∧ Piece.operator other offset ∈ p := by
  induction h with
  | nil => cases hmem
  | operand o _ ih =>
    obtain ⟨hne, hbefore⟩ := ih (operator_mem_operand_cons.mp hmem)
    exact ⟨hne, List.mem_cons_of_mem _ hbefore⟩
  | other place hkept _ ih =>
    rcases List.mem_cons.mp hmem with heq | hmem
    · cases heq
      exact ⟨hkept, List.mem_cons_self⟩
    · obtain ⟨hne, hbefore⟩ := ih hmem
      exact ⟨hne, List.mem_cons_of_mem _ hbefore⟩
  | negate place _ ih =>
    have hleft := operator_mem_operand_cons.mp hmem
    obtain ⟨hne, hbefore⟩ := ih (operator_mem_operand_cons.mpr hleft)
    exact ⟨hne, List.mem_cons_of_mem _ hbefore⟩
  | join l place _ ih =>
    have hleft := operator_mem_operand_cons.mp hmem
    obtain ⟨hne, hbefore⟩ := ih (operator_mem_operand_cons.mpr hleft)
    exact ⟨hne, List.mem_cons_of_mem _ (List.mem_cons_of_mem _ hbefore)⟩

/-! ## The pass agrees -/

/-- A pass goes by an operator of another kind. -/
theorem passFrom_other {op other : Operator} (h : other ≠ op) (offset : Nat) (ahead : List Piece)
    (passed : Phrase) :
    passFrom op (.operator other offset :: ahead) passed =
      passFrom op ahead (.operator other offset :: passed) := by
  rw [passFrom.eq_def]
  simp only [if_pos h]

/-- A pass gives a negation the operand behind it. -/
theorem passFrom_not (offset : Nat) (ahead : List Piece) (o : Operand) (passed : Phrase) :
    passFrom .not (.operator .not offset :: ahead) (.operand o :: passed) =
      (o.negated offset).accept >>= fun p => passFrom .not ahead (.operand p :: passed) := by
  rw [passFrom.eq_def]
  rfl

/-- A pass gives a connective the operands on both sides. -/
theorem passFrom_binary (c : Connective) (offset : Nat) (l r : Operand) (ahead : List Piece)
    (passed : Phrase) :
    passFrom (.binary c) (.operator (.binary c) offset :: .operand l :: ahead)
        (.operand r :: passed) =
      (Operand.joined c l r).accept >>= fun p =>
        passFrom (.binary c) ahead (.operand p :: passed) := by
  rw [passFrom.eq_def]
  simp
  rfl

/-- A pass that succeeds absorbs. The entries passed already are the outcome of a part `p` of the
phrase, which stands behind the entries ahead. -/
theorem absorbs_of_passFrom {op : Operator} {ahead : List Piece} {p passed q : Phrase}
    (hpassed : Absorbs op p passed) (h : passFrom op ahead passed = .ok q) :
    Absorbs op (ahead.reverse ++ p) q := by
  fun_induction passFrom op ahead passed generalizing p with
  | case1 passed =>
    cases h
    exact hpassed
  | case2 passed ahead o ih => simpa using ih (hpassed.operand _) h
  | case3 passed ahead other offset hne ih => simpa using ih (hpassed.other _ hne) h
  | case4 offset ahead right passed heq ih =>
    obtain rfl := not_not.mp heq
    obtain ⟨o, ho, hrest⟩ := bind_eq_ok_iff.mp h
    obtain ⟨_, rfl⟩ := Operand.accept_eq_ok_iff.mp ho
    simpa using ih _ (hpassed.negate offset) hrest
  | case5 offset right passed c left ahead heq ih =>
    obtain rfl := not_not.mp heq
    obtain ⟨o, ho, hrest⟩ := bind_eq_ok_iff.mp h
    obtain ⟨_, rfl⟩ := Operand.accept_eq_ok_iff.mp ho
    simpa using ih _ (hpassed.join left offset) hrest
  | case6 => cases h
  | case7 => cases h

/-- A pass that succeeds absorbs. -/
theorem absorbs_of_pass {op : Operator} {p q : Phrase} (h : pass p op = .ok q) :
    Absorbs op p q := by
  have habsorbs := absorbs_of_passFrom .nil h
  rwa [List.reverse_reverse, List.append_nil] at habsorbs

/-- A pass that succeeds keeps to the limit. -/
theorem low_of_passFrom {op : Operator} {ahead : List Piece} {passed q : Phrase}
    (hahead : Low ahead) (hpassed : Low passed) (h : passFrom op ahead passed = .ok q) : Low q := by
  fun_induction passFrom op ahead passed with
  | case1 passed =>
    cases h
    exact hpassed
  | case2 passed ahead o ih =>
    rw [low_operand_cons] at hahead
    exact ih hahead.2 (low_operand_cons.mpr ⟨hahead.1, hpassed⟩) h
  | case3 passed ahead other offset hne ih =>
    rw [low_operator_cons] at hahead
    exact ih hahead (low_operator_cons.mpr hpassed) h
  | case4 offset ahead right passed heq ih =>
    rw [low_operator_cons] at hahead
    rw [low_operand_cons] at hpassed
    obtain ⟨o, ho, hrest⟩ := bind_eq_ok_iff.mp h
    obtain ⟨hle, rfl⟩ := Operand.accept_eq_ok_iff.mp ho
    exact ih _ hahead (low_operand_cons.mpr ⟨hle, hpassed.2⟩) hrest
  | case5 offset right passed c left ahead heq ih =>
    rw [low_operator_cons, low_operand_cons] at hahead
    rw [low_operand_cons] at hpassed
    obtain ⟨o, ho, hrest⟩ := bind_eq_ok_iff.mp h
    obtain ⟨hle, rfl⟩ := Operand.accept_eq_ok_iff.mp ho
    exact ih _ hahead.2 (low_operand_cons.mpr ⟨hle, hpassed.2⟩) hrest
  | case6 => cases h
  | case7 => cases h

/-- A phrase that absorbs within the limit passes. The statement leaves open what stands ahead of
the phrase, since that is what the induction from left to right moves. -/
theorem passFrom_of_absorbs {op : Operator} {p q : Phrase} (h : Absorbs op p q) (hq : Low q)
    (ahead : List Piece) : passFrom op (p.reverse ++ ahead) [] = passFrom op ahead q := by
  induction h generalizing ahead with
  | nil => rfl
  | operand o _ ih =>
    have hsub := ih (low_operand_cons.mp hq).2 (.operand o :: ahead)
    rw [passFrom] at hsub
    simpa using hsub
  | @other op other p q offset hne _ ih =>
    have hsub := ih (low_operator_cons.mp hq) (.operator other offset :: ahead)
    rw [passFrom_other hne] at hsub
    simpa using hsub
  | @negate p q o offset _ ih =>
    have hle := low_operand_cons.mp hq
    have ho : o.height + 1 ≤ maxDepth := hle.1
    have hsub := ih (low_operand_cons.mpr ⟨by omega, hle.2⟩) (.operator .not offset :: ahead)
    rw [passFrom_not, Operand.accept_of_le hle.1, ok_bind] at hsub
    simpa using hsub
  | @join c p q r l offset _ ih =>
    have hle := low_operand_cons.mp hq
    have hlr : max l.height r.height + 1 ≤ maxDepth := hle.1
    have hsub := ih (low_operand_cons.mpr ⟨by omega, hle.2⟩)
      (.operator (.binary c) offset :: .operand l :: ahead)
    rw [passFrom_binary, Operand.accept_of_le hle.1, ok_bind] at hsub
    simpa using hsub

/-- A phrase that absorbs beyond the limit is refused by the pass for its height. -/
theorem passFrom_of_absorbs_of_not_low {op : Operator} {p q : Phrase} (h : Absorbs op p q)
    (hp : Low p) (hq : ¬ Low q) (ahead : List Piece) :
    ∃ offset, passFrom op (p.reverse ++ ahead) [] = .error (.operatorsTooDeep offset) := by
  induction h generalizing ahead with
  | nil => exact absurd hp hq
  | operand o _ ih =>
    rw [low_operand_cons] at hp hq
    obtain ⟨offset, h⟩ := ih hp.2 (fun hlow => hq ⟨hp.1, hlow⟩) (.operand o :: ahead)
    exact ⟨offset, by simpa using h⟩
  | @other op other p q place _ _ ih =>
    rw [low_operator_cons] at hp hq
    obtain ⟨offset, h⟩ := ih hp hq (.operator other place :: ahead)
    exact ⟨offset, by simpa using h⟩
  | @negate p q o place habsorbs ih =>
    rw [low_operator_cons] at hp
    by_cases hsub : Low (.operand o :: q)
    · -- Everything behind the operator passes, so it is the new operand that is too tall.
      have htall : maxDepth < (o.negated place).height := by
        by_contra hle
        exact hq (low_operand_cons.mpr ⟨Nat.not_lt.mp hle, (low_operand_cons.mp hsub).2⟩)
      have hpass := passFrom_of_absorbs habsorbs hsub (.operator .not place :: ahead)
      rw [passFrom_not, Operand.accept_of_lt htall, error_bind] at hpass
      exact ⟨_, by simpa using hpass⟩
    · obtain ⟨offset, h⟩ := ih hp hsub (.operator .not place :: ahead)
      exact ⟨offset, by simpa using h⟩
  | @join c p q r l place habsorbs ih =>
    rw [low_operand_cons, low_operator_cons] at hp
    by_cases hsub : Low (.operand r :: q)
    · have htall : maxDepth < (Operand.joined c l r).height := by
        by_contra hle
        exact hq (low_operand_cons.mpr ⟨Nat.not_lt.mp hle, (low_operand_cons.mp hsub).2⟩)
      have hpass := passFrom_of_absorbs habsorbs hsub
        (.operator (.binary c) place :: .operand l :: ahead)
      rw [passFrom_binary, Operand.accept_of_lt htall, error_bind] at hpass
      exact ⟨_, by simpa using hpass⟩
    · obtain ⟨offset, h⟩ := ih hp.2 hsub (.operator (.binary c) place :: .operand l :: ahead)
      exact ⟨offset, by simpa using h⟩

/-- A phrase that absorbs within the limit passes. -/
theorem pass_of_absorbs {op : Operator} {p q : Phrase} (h : Absorbs op p q) (hq : Low q) :
    pass p op = .ok q := by
  have hpass := passFrom_of_absorbs h hq []
  rwa [List.append_nil] at hpass

/-- A phrase that absorbs beyond the limit is refused for its height. -/
theorem pass_of_absorbs_of_not_low {op : Operator} {p q : Phrase} (h : Absorbs op p q)
    (hp : Low p) (hq : ¬ Low q) : ∃ offset, pass p op = .error (.operatorsTooDeep offset) := by
  have hpass := passFrom_of_absorbs_of_not_low h hp hq []
  rwa [List.append_nil] at hpass

/-! ## Pass after pass -/

/-- The second phrase is what remains of the first one after a pass for each operator. -/
inductive AbsorbsAll : List Operator → Phrase → Phrase → Prop
  /-- Without a pass nothing changes. -/
  | nil {p : Phrase} : AbsorbsAll [] p p
  /-- The later passes work on what the first one leaves. -/
  | cons {op : Operator} {ops : List Operator} {p q r : Phrase} :
      Absorbs op p q → AbsorbsAll ops q r → AbsorbsAll (op :: ops) p r

/-- Operands only grow: if those after all passes are within the limit, so are those before. -/
theorem AbsorbsAll.low {ops : List Operator} {p q : Phrase} (h : AbsorbsAll ops p q)
    (hq : Low q) : Low p := by
  induction h with
  | nil => exact hq
  | cons h _ ih => exact h.low (ih hq)

/-- Passes keep the heights true. -/
theorem AbsorbsAll.exact {ops : List Operator} {p q : Phrase} (h : AbsorbsAll ops p q)
    (hp : Exact p) : Exact q := by
  induction h with
  | nil => exact hp
  | cons h _ ih => exact ih (h.exact hp)

/-- An operator that is left is none that there was a pass for. -/
theorem AbsorbsAll.not_mem {ops : List Operator} {other : Operator} {offset : Nat} {p q : Phrase}
    (h : AbsorbsAll ops p q) (hmem : Piece.operator other offset ∈ q) :
    other ∉ ops ∧ Piece.operator other offset ∈ p := by
  induction h with
  | nil => exact ⟨List.not_mem_nil, hmem⟩
  | cons hpass _ ih =>
    obtain ⟨hops, hbetween⟩ := ih hmem
    obtain ⟨hne, hbefore⟩ := hpass.operator_left hbetween
    refine ⟨?_, hbefore⟩
    rw [List.mem_cons, not_or]
    exact ⟨hne, hops⟩

/-- Passes that succeed absorb. -/
theorem absorbsAll_of_foldlM_pass {ops : List Operator} {p q : Phrase}
    (h : ops.foldlM pass p = .ok q) : AbsorbsAll ops p q := by
  induction ops generalizing p with
  | nil =>
    cases h
    exact .nil
  | cons op ops ih =>
    rw [List.foldlM_cons] at h
    obtain ⟨r, hpass, hrest⟩ := bind_eq_ok_iff.mp h
    exact .cons (absorbs_of_pass hpass) (ih hrest)

/-- Passes that succeed keep to the limit. -/
theorem low_of_foldlM_pass {ops : List Operator} {p q : Phrase} (hp : Low p)
    (h : ops.foldlM pass p = .ok q) : Low q := by
  induction ops generalizing p with
  | nil =>
    cases h
    exact hp
  | cons op ops ih =>
    rw [List.foldlM_cons] at h
    obtain ⟨r, hpass, hrest⟩ := bind_eq_ok_iff.mp h
    have hreverse : Low p.reverse := fun o ho => hp o (List.mem_reverse.mp ho)
    exact ih (low_of_passFrom hreverse low_nil hpass) hrest

/-- A phrase that absorbs within the limit passes. -/
theorem foldlM_pass_of_absorbsAll {ops : List Operator} {p q : Phrase}
    (h : AbsorbsAll ops p q) (hq : Low q) : ops.foldlM pass p = .ok q := by
  induction h with
  | nil => rfl
  | @cons op ops p r q h hall ih =>
    rw [List.foldlM_cons, pass_of_absorbs h (hall.low hq)]
    exact ih hq

/-- A phrase that absorbs beyond the limit is refused for its height. -/
theorem foldlM_pass_of_absorbsAll_of_not_low {ops : List Operator} {p q : Phrase}
    (h : AbsorbsAll ops p q) (hp : Low p) (hq : ¬ Low q) :
    ∃ offset, ops.foldlM pass p = .error (.operatorsTooDeep offset) := by
  induction h with
  | nil => exact absurd hp hq
  | @cons op ops p r q h hall ih =>
    rw [List.foldlM_cons]
    by_cases hr : Low r
    · rw [pass_of_absorbs h hr]
      exact ih hr hq
    · obtain ⟨offset, hpass⟩ := pass_of_absorbs_of_not_low h hp hr
      exact ⟨offset, by rw [hpass, error_bind]⟩

end Phrase

end PredicateExpr
