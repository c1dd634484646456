import Mathlib.Tactic.Common
import PredicateExpr.Phrase.Fault
import PredicateExpr.Proofs.Phrase.Passes

/-!
# Which error a phrase is refused with

A pass works on what the passes before it have left of a phrase, but what is wrong with the phrase
is the same all the time: a pass that succeeds changes neither the list of bare operators nor the
place of the first unjoined operand (`Phrase.Absorbs.bareFrom_eq`, `Phrase.Absorbs.unjoined?_eq`),
and one that fails does so at the last bare operator of its kind
(`Phrase.exists_bare_of_passFrom`). So both can be read off the phrase as it was at the beginning
(`Phrase.fold_refusal`).
-/

namespace PredicateExpr

/-- Whether an entry is an operand. -/
def Piece.isOperand : Piece → Bool
  | .operand _ => true
  | .operator _ _ => false

/-- An operand is refused for its height only. -/
theorem Operand.eq_of_accept {o : Operand} {e : CompileError} (h : o.accept = .error e) :
    e = .operatorsTooDeep o.offset := by
  unfold accept at h
  split at h
  · exact (Except.error.inj h).symm
  · cases h

namespace Phrase

variable {op : Operator} {p q : Phrase}

/-! ## What a pass keeps -/

/-- An operator in front of an operand is not bare if it needs none on its left or has one there. -/
theorem bareFrom_operator {behindOperand : Bool} (hright : p.bareRight = false)
    (hleft : (op.isUnary || behindOperand) = true) (offset : Nat) :
    bareFrom behindOperand (.operator op offset :: p) = p.bareFrom false := by
  rw [bareFrom, bareSide?, hright, hleft]
  rfl

namespace Absorbs

/-- An operator in front of a phrase is bare on its right after the pass where it was before. -/
theorem bareRight_eq (h : Absorbs op p q) : p.bareRight = q.bareRight := by
  cases h with
  | @other _ kept _ _ _ _ _ => cases kept <;> rfl
  | nil | operand | negate | join => rfl

/-- The operand that a phrase begins with starts where it did. -/
theorem start?_eq (h : Absorbs op p q) : p.start? = q.start? := by
  cases h with
  | @other _ kept _ _ _ _ _ => cases kept <;> rfl
  | nil | operand | negate | join => rfl

/-- The first unjoined operand stays where it is. -/
theorem unjoined?_eq (h : Absorbs op p q) : p.unjoined? = q.unjoined? := by
  induction h with
  | nil => rfl
  | operand o h ih => rw [unjoined?, unjoined?, h.start?_eq, ih]
  | other offset _ _ ih => exact ih
  | negate offset _ ih => exact ih
  | join l offset _ ih => exact ih

/-- An operator is bare after the pass where it was bare before. -/
theorem bareFrom_eq (h : Absorbs op p q) (behindOperand : Bool) :
    p.bareFrom behindOperand = q.bareFrom behindOperand := by
  induction h generalizing behindOperand with
  | nil => rfl
  | operand o _ ih => exact ih true
  | other offset _ h ih => rw [bareFrom, bareFrom, ih, bareSide?, bareSide?, h.bareRight_eq]
  | negate offset h ih =>
    rw [bareFrom_operator h.bareRight_eq rfl, ih]
    rfl
  | @join c p _ _ l offset h ih =>
    have htaken : bareFrom true (.operator (.binary c) offset :: p) = p.bareFrom false :=
      bareFrom_operator h.bareRight_eq (Bool.or_true _) offset
    exact htaken.trans (ih false)

end Absorbs

/-! ## Where a pass fails -/

/-- What is bare in the entries passed is bare in the whole phrase, in whose entries ahead the last
one comes first. -/
theorem exists_bareFrom_append (ahead : List Piece) (passed : Phrase) :
    ∃ front, bareFrom false (ahead.reverse ++ passed) =
      front ++ bareFrom (ahead.head?.any Piece.isOperand) passed := by
  induction ahead generalizing passed with
  | nil => exact ⟨[], rfl⟩
  | cons piece ahead ih =>
    obtain ⟨front, hfront⟩ := ih (piece :: passed)
    rw [List.reverse_cons, List.append_assoc, List.singleton_append, hfront]
    cases piece with
    | operand o => exact ⟨front, rfl⟩
    | operator op offset => exact ⟨_, (List.append_assoc _ _ _).symm⟩

/-- A bare operator is one of the operators of the phrase. -/
theorem mem_of_mem_bareFrom {behindOperand : Bool} {bare : Bare}
    (h : bare ∈ p.bareFrom behindOperand) : Piece.operator bare.operator bare.offset ∈ p := by
  induction p generalizing behindOperand with
  | nil => cases h
  | cons piece p ih =>
    cases piece with
    | operand o => exact List.mem_cons_of_mem _ (ih h)
    | operator op offset =>
      rcases List.mem_append.mp h with hhere | hlater
      · obtain ⟨side, _, rfl⟩ := Option.map_eq_some_iff.mp (Option.mem_toList.mp hhere)
        exact List.mem_cons_self
      · exact List.mem_cons_of_mem _ (ih hlater)

/-- After a pass that succeeds, and so before it, no operator of the pass is bare. -/
theorem Absorbs.filter_bareFrom (h : Absorbs op p q) (behindOperand : Bool) :
    ((p.bareFrom behindOperand).filter fun bare => bare.operator = op) = [] := by
  rw [List.filter_eq_nil_iff, h.bareFrom_eq]
  intro bare hmem
  simpa using (h.operator_left (mem_of_mem_bareFrom hmem)).1

/-- An operator with none of its kind bare behind it is the last bare one of its kind. -/
theorem lastBare?_of_bareSide? {ahead : List Piece} {side : Side} {offset : Nat}
    (hside : bareSide? (ahead.head?.any Piece.isOperand) op p = some side) (hp : Absorbs op p q) :
    lastBare? (ahead.reverse ++ .operator op offset :: p) op = some ⟨op, side, offset⟩ := by
  obtain ⟨front, hfront⟩ := exists_bareFrom_append ahead (.operator op offset :: p)
  rw [lastBare?, bare, hfront, bareFrom, hside, List.filter_append, List.filter_append,
    hp.filter_bareFrom]
  simp

/-- A pass fails at the last bare operator of its kind, unless it makes a tree too tall. The
entries passed already are the outcome of a part `p` of the phrase, which stands behind the entries
ahead. -/
theorem exists_bare_of_passFrom {ahead : List Piece} {passed : Phrase} {e : CompileError}
    (hnot : op = .not ∨ ∀ offset, Piece.operator .not offset ∉ ahead.reverse ++ p)
    (hpassed : Absorbs op p passed) (h : passFrom op ahead passed = .error e) :
    (∃ offset, e = .operatorsTooDeep offset) ∨
      ∃ bare, lastBare? (ahead.reverse ++ p) op = some bare ∧ e = bare.error := by
  fun_induction passFrom op ahead passed generalizing p with
  | case1 => cases h
  | case2 passed ahead o ih => simpa using ih (by simpa using hnot) (hpassed.operand _) h
  | case3 other offset ahead passed hne ih =>
    simpa using ih (by simpa using hnot) (hpassed.other _ hne) h
  | case4 offset ahead right passed heq ih =>
    obtain rfl := not_not.mp heq
    obtain htall | ⟨o, ho, hrest⟩ := bind_eq_error_iff.mp h
    · exact .inl ⟨_, Operand.eq_of_accept htall⟩
    · obtain ⟨_, rfl⟩ := Operand.accept_eq_ok_iff.mp ho
      simpa using ih _ (by simp) (hpassed.negate offset) hrest
  | case5 offset right passed c left ahead heq ih =>
    obtain rfl := not_not.mp heq
    obtain htall | ⟨o, ho, hrest⟩ := bind_eq_error_iff.mp h
    · exact .inl ⟨_, Operand.eq_of_accept htall⟩
    · obtain ⟨_, rfl⟩ := Operand.accept_eq_ok_iff.mp ho
      simpa using ih _ (by simpa using hnot) (hpassed.join left offset) hrest
  | case6 offset ahead right passed c hnone heq =>
    obtain rfl := not_not.mp heq
    cases h
    have hleft : ahead.head?.any Piece.isOperand = false := by
      cases ahead with
      | nil => rfl
      | cons piece ahead =>
        cases piece with
        | operator => rfl
        | operand left => exact (hnone left ahead rfl).elim
    have hside : bareSide? (ahead.head?.any Piece.isOperand) (.binary c) p = some .left := by
      rw [bareSide?, hpassed.bareRight_eq, hleft]
      rfl
    refine .inr ⟨⟨.binary c, .left, offset⟩, ?_, rfl⟩
    simpa using lastBare?_of_bareSide? hside hpassed
  | case7 other offset ahead passed heq hnone =>
    obtain rfl := not_not.mp heq
    cases h
    have hright : p.bareRight = true := by
      rw [hpassed.bareRight_eq]
      cases passed with
      | nil => rfl
      | cons piece passed =>
        cases piece with
        | operand right => exact (hnone right passed rfl).elim
        | operator next place =>
          -- a negation that is still there means that there was no pass for negations before
          obtain ⟨hne, hmem⟩ := hpassed.operator_left List.mem_cons_self
          cases next with
          | binary c => rfl
          | not =>
            have hfree := hnot.resolve_left fun hop => hne hop.symm
            exact absurd (List.mem_append_right _ hmem) (hfree place)
    have hside : bareSide? (ahead.head?.any Piece.isOperand) other p = some .right := by
      rw [bareSide?, hright]
      rfl
    refine .inr ⟨⟨other, .right, offset⟩, ?_, rfl⟩
    simpa using lastBare?_of_bareSide? hside hpassed

/-! ## Pass after pass -/

/-- Passes that succeed leave the first unjoined operand where it is. -/
theorem AbsorbsAll.unjoined?_eq {ops : List Operator} (h : AbsorbsAll ops p q) :
    p.unjoined? = q.unjoined? := by
  induction h with
  | nil => rfl
  | cons habsorbs _ ih => exact habsorbs.unjoined?_eq.trans ih

/-- Passes that succeed leave the bare operators as they are. -/
theorem AbsorbsAll.bareFrom_eq {ops : List Operator} (h : AbsorbsAll ops p q)
    (behindOperand : Bool) : p.bareFrom behindOperand = q.bareFrom behindOperand := by
  induction h with
  | nil => rfl
  | cons habsorbs _ ih => exact (habsorbs.bareFrom_eq behindOperand).trans ih

/-- After the passes by precedence no operator is left. -/
theorem AbsorbsAll.operator_not_mem (h : AbsorbsAll Operator.precedence p q) (op : Operator)
    (offset : Nat) : Piece.operator op offset ∉ q :=
  fun hmem => (h.not_mem hmem).1 op.mem_precedence

/-- Passes that fail do so at the foremost bare operator, unless they make a tree too tall. -/
theorem exists_bare_of_foldlM_pass {ops : List Operator} {e : CompileError}
    (hnot : ops.head? = some .not ∨ ∀ offset, Piece.operator .not offset ∉ p)
    (h : ops.foldlM pass p = .error e) :
    (∃ offset, e = .operatorsTooDeep offset) ∨
      ∃ bare, ops.findSome? p.lastBare? = some bare ∧ e = bare.error := by
  induction ops generalizing p with
  | nil => cases h
  | cons op ops ih =>
    have hfirst : op = .not ∨ ∀ offset, Piece.operator .not offset ∉ p :=
      hnot.imp_left Option.some.inj
    rw [List.foldlM_cons] at h
    rw [List.findSome?_cons]
    obtain hfail | ⟨q, hpass, hrest⟩ := bind_eq_error_iff.mp h
    · have hbare := exists_bare_of_passFrom (p := []) (by simpa using hfirst) .nil hfail
      rw [List.reverse_reverse, List.append_nil] at hbare
      refine hbare.imp_right ?_
      rintro ⟨bare, hlast, he⟩
      exact ⟨bare, by rw [hlast], he⟩
    · -- no operator of this pass is bare, and the others are bare where they were before
      have habsorbs := absorbs_of_pass hpass
      have hnone : p.lastBare? op = none := by
        rw [lastBare?, bare, habsorbs.filter_bareFrom]
        rfl
      have hothers : p.lastBare? = q.lastBare? := by
        funext other
        rw [lastBare?, lastBare?, bare, bare, habsorbs.bareFrom_eq]
      have hfree : ∀ offset, Piece.operator .not offset ∉ q := by
        intro offset hmem
        obtain ⟨hne, hbefore⟩ := habsorbs.operator_left hmem
        exact hfirst.elim (fun hop => hne hop.symm) fun hfree => hfree offset hbefore
      rw [hnone, hothers]
      exact ih (.inr hfree) hrest

/-! ## The fold of a phrase -/

/-- A phrase without operators is refused for the second of its operands. -/
theorem only_of_operator_not_mem (h : ∀ op offset, Piece.operator op offset ∉ p) :
    (p.unjoined? = none ∧ ∃ m, p.only = .ok m) ∨
      ∃ offset, p.unjoined? = some offset ∧ p.only = .error (.missingOperator offset) := by
  have hoperand : ∀ piece ∈ p, ∃ o, piece = .operand o := by
    intro piece hmem
    cases piece with
    | operand o => exact ⟨o, rfl⟩
    | operator op offset => exact absurd hmem (h op offset)
  match p, hoperand with
  | [], _ => exact .inl ⟨rfl, _, rfl⟩
  | [first], hoperand =>
    obtain ⟨o, rfl⟩ := hoperand first (by simp)
    exact .inl ⟨rfl, _, rfl⟩
  | first :: extra :: others, hoperand =>
    obtain ⟨o, rfl⟩ := hoperand first (by simp)
    obtain ⟨o', rfl⟩ := hoperand extra (by simp)
    exact .inr ⟨o'.offset, rfl, rfl⟩

/-- What becomes of a phrase, unless a tree grows too tall: it is refused for its foremost bare
operator, or else for its first unjoined operand, or it is an expression. -/
theorem fold_cases (p : Phrase) :
    (∃ offset, p.fold = .error (.operatorsTooDeep offset)) ∨
      (∃ bare, p.foremostBare? = some bare ∧ p.fold = .error bare.error) ∨
      p.bare = [] ∧ ((p.unjoined? = none ∧ ∃ m, p.fold = .ok m) ∨
        ∃ offset, p.unjoined? = some offset ∧ p.fold = .error (.missingOperator offset)) := by
  cases hpasses : Operator.precedence.foldlM pass p with
  | error e =>
    have hfold : p.fold = .error e := by rw [fold, hpasses, error_bind]
    obtain ⟨offset, rfl⟩ | ⟨bare, hbare, rfl⟩ := exists_bare_of_foldlM_pass (.inl rfl) hpasses
    · exact .inl ⟨offset, hfold⟩
    · exact .inr (.inl ⟨bare, hbare, hfold⟩)
  | ok q =>
    have hall := absorbsAll_of_foldlM_pass hpasses
    have hleft := hall.operator_not_mem
    have hfold : p.fold = q.only := by rw [fold, hpasses, ok_bind]
    have hbare : p.bare = [] := by
      rw [bare, hall.bareFrom_eq, List.eq_nil_iff_forall_not_mem]
      exact fun bare hmem => hleft _ _ (mem_of_mem_bareFrom hmem)
    rw [hfold, hall.unjoined?_eq]
    exact .inr (.inr ⟨hbare, only_of_operator_not_mem hleft⟩)

/-- Where an operator comes foremost, one is bare. -/
theorem bare_ne_nil_of_foremostBare? {bare : Bare} (h : p.foremostBare? = some bare) :
    p.bare ≠ [] := by
  obtain ⟨op, _, hlast⟩ := List.exists_of_findSome?_eq_some h
  intro hnil
  rw [lastBare?, hnil] at hlast
  cases hlast

/-- A phrase whose trees do not grow too tall is refused for an operator when one is bare: for the
foremost one, and for the side on which it is bare. The foremost one is the last bare negation, or
else the last bare conjunction, and so on down the connectives. Where none is bare, the phrase is
refused when an operand is unjoined, for the first such operand, and is an expression otherwise. -/
theorem fold_refusal (h : ∀ offset, p.fold ≠ .error (.operatorsTooDeep offset)) :
    ((∃ op side offset, p.fold = .error (.missingOperand op side offset)) ↔ p.bare ≠ []) ∧
    (∀ op side offset, p.fold = .error (.missingOperand op side offset) ↔
      p.foremostBare? = some ⟨op, side, offset⟩) ∧
    p.foremostBare? = (p.lastBare? .not).or ((p.lastBare? (.binary .and)).or
      ((p.lastBare? (.binary .xor)).or (p.lastBare? (.binary .or)))) ∧
    (p.bare = [] →
      ((∃ e, p.fold = .error e) ↔ ∃ offset, p.unjoined? = some offset) ∧
      (∀ offset, p.unjoined? = some offset → p.fold = .error (.missingOperator offset)) ∧
      (p.unjoined? = none → ∃ m, p.fold = .ok m)) := by
  obtain ⟨offset, hdeep⟩ | ⟨bare, hforemost, hfold⟩ | ⟨hbare, hrest⟩ := p.fold_cases
  · exact absurd hdeep (h offset)
  · have hne := bare_ne_nil_of_foremostBare? hforemost
    refine ⟨iff_of_true ⟨_, _, _, hfold⟩ hne, ?_, p.foremostBare?_eq, fun hnil => absurd hnil hne⟩
    intro op side offset
    rw [hfold, hforemost]
    obtain ⟨op', side', offset'⟩ := bare
    simp [Bare.error]
  · have hforemost : p.foremostBare? = none := by
      rw [Option.eq_none_iff_forall_ne_some]
      exact fun bare hsome => bare_ne_nil_of_foremostBare? hsome hbare
    obtain ⟨hnone, m, hfold⟩ | ⟨offset, hsome, hfold⟩ := hrest
    · rw [← foremostBare?_eq, hfold, hforemost, hnone]
      simp [hbare]
    · rw [← foremostBare?_eq, hfold, hforemost, hsome]
      simp [hbare]

/-- The entries of `a & b ^ ^ !c d |`, where the second exclusive alternative comes foremost, and
those of `a & b !!c d`, where no operator is bare. -/
theorem fold_refusal_of_bare_of_unjoined :
    fold [.operand (.ofAtom ⟨"a", []⟩ 0), .operator (.binary .and) 2,
        .operand (.ofAtom ⟨"b", []⟩ 4), .operator (.binary .xor) 6, .operator (.binary .xor) 8,
        .operator .not 10, .operand (.ofAtom ⟨"c", []⟩ 11), .operand (.ofAtom ⟨"d", []⟩ 13),
        .operator (.binary .or) 15] = .error (.missingOperand (.binary .xor) .left 8) ∧
      fold [.operand (.ofAtom ⟨"a", []⟩ 0), .operator (.binary .and) 2,
        .operand (.ofAtom ⟨"b", []⟩ 4), .operator .not 6, .operator .not 7,
        .operand (.ofAtom ⟨"c", []⟩ 8), .operand (.ofAtom ⟨"d", []⟩ 10)] =
          .error (.missingOperator 6) := by
  constructor
  · refine ((fold_refusal ?_).2.1 _ _ _).mpr rfl
    intro offset hdeep
    cases hdeep
  · refine ((fold_refusal ?_).2.2.2 rfl).2.1 _ rfl
    intro offset hdeep
    cases hdeep

end Phrase

end PredicateExpr
