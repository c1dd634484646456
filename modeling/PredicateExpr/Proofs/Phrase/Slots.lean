import Mathlib.Tactic.Common
import PredicateExpr.Phrase.Slots
import PredicateExpr.Phrase.InOrder
import PredicateExpr.Proofs.Phrase.Passes

/-!
# Passes in place are passes

A sweep that has come to a slot has the slots in front of it still to visit, and everything behind
it is done. So a phrase in slots is a phrase in two parts, and each lemma on slots gives the slot by
the length of the part in front of it. What a sweep does with a slot is then what `Phrase.passFrom`
does with the last entry of that part (`sweep_eq`). In particular the slots themselves never cause
trouble.

What a pass in place keeps is read off `Phrase.Absorbs`, and `passInPlace_invariant` puts it
together.
-/

namespace PredicateExpr

namespace Phrase

variable {op : Operator} {p q front back : Phrase} {slot : Nat}

/-! ## Slots of a phrase in two parts -/

/-- A slot holds the entry that follows the part in front of it. -/
theorem getElem?_behind (h : front.length = slot) (piece : Piece) (back : Phrase) :
    (front ++ piece :: back)[slot]? = some piece := by
  rw [← h]
  simp

/-- Without its slot an entry is gone and nothing else. -/
theorem remove?_behind (h : front.length = slot) (piece : Piece) (back : Phrase) :
    remove? (front ++ piece :: back) slot = some (piece, front ++ back) := by
  rw [remove?, getElem?_behind h, ← h]
  simp [List.eraseIdx_append_of_length_le]

/-- A slot that is filled holds the operand instead of the entry. -/
theorem put_behind (h : front.length = slot) (piece : Piece) (back : Phrase) (o : Operand) :
    put (front ++ piece :: back) slot o = .ok (front ++ .operand o :: back) := by
  rw [← h]
  simp [put]

/-- An operand is taken out of its slot, and nothing else is. -/
theorem takeOperand_behind (h : front.length = slot) (back : Phrase) (missing : CompileError) :
    takeOperand (front ++ back) slot missing =
      match back with
      | .operand o :: back => .ok (o, front ++ back)
      | _ => .error (.fault missing) := by
  unfold takeOperand
  match back with
  | [] => simp [← h]
  | .operator _ _ :: back => rw [getElem?_behind h]
  | .operand o :: back => rw [getElem?_behind h, remove?_behind h]

/-- The operand behind an entry is taken out, if there is one. -/
theorem takeOperand_next (h : front.length = slot) (piece : Piece) (back : Phrase)
    (missing : CompileError) :
    takeOperand (front ++ piece :: back) (slot + 1) missing =
      match back with
      | .operand o :: back => .ok (o, front ++ piece :: back)
      | _ => .error (.fault missing) := by
  have hlength : (front ++ [piece]).length = slot + 1 := by
    rw [List.length_append, h, List.length_singleton]
  simpa using takeOperand_behind hlength back missing

/-! ## One slot -/

/-- A sweep goes by an operand. -/
theorem sweep_operand (h : front.length = slot) (o : Operand) (back : Phrase) :
    sweep op (slot + 1) (front ++ .operand o :: back) =
      sweep op slot (front ++ .operand o :: back) := by
  rw [sweep, getElem?_behind h]

/-- A sweep goes by an operator of another kind. -/
theorem sweep_other {other : Operator} (h : front.length = slot) (hne : other ≠ op) (offset : Nat)
    (back : Phrase) :
    sweep op (slot + 1) (front ++ .operator other offset :: back) =
      sweep op slot (front ++ .operator other offset :: back) := by
  rw [sweep, getElem?_behind h]
  exact if_pos hne

/-- A negation takes the operand behind it. -/
theorem sweep_not (h : front.length = slot) (offset : Nat) (right : Operand) (back : Phrase) :
    sweep .not (slot + 1) (front ++ .operator .not offset :: .operand right :: back) =
      (right.negate offset).mapError .fault >>= fun o =>
        sweep .not slot (front ++ .operand o :: back) := by
  have hunary : Operator.not.isUnary = true := rfl
  rw [sweep, getElem?_behind h]
  simp only [ne_eq, not_true_eq_false, if_false, takeOperand_next h, ok_bind, hunary, if_true,
    put_behind h]

/-- A connective takes the operands on both sides. The entry that it is has moved to the slot of the
left one by then. -/
theorem sweep_binary {c : Connective} (h : front.length = slot) (left right : Operand)
    (offset : Nat) (back : Phrase) :
    sweep (.binary c) (slot + 2)
        (front ++ .operand left :: .operator (.binary c) offset :: .operand right :: back) =
      (Operand.join c left right).mapError .fault >>= fun o =>
        sweep (.binary c) slot (front ++ .operand o :: back) := by
  have hsplit : front ++ .operand left :: .operator (.binary c) offset :: .operand right :: back =
      (front ++ [.operand left]) ++ .operator (.binary c) offset :: .operand right :: back := by
    simp
  have hlength : (front ++ [Piece.operand left]).length = slot + 1 := by
    rw [List.length_append, h, List.length_singleton]
  have hbinary : (Operator.binary c).isUnary = false := rfl
  rw [hsplit, sweep, getElem?_behind hlength]
  simp only [ne_eq, not_true_eq_false, if_false, takeOperand_next hlength, ok_bind, hbinary,
    Bool.false_eq_true]
  rw [List.append_assoc, List.singleton_append, takeOperand_behind h]
  simp only [ok_bind, put_behind h]
  rfl

/-- An operator of the pass complains when no operand is behind it. -/
theorem sweep_bare_right (h : front.length = slot) (offset : Nat)
    (hback : ∀ o rest, back = .operand o :: rest → False) :
    sweep op (slot + 1) (front ++ .operator op offset :: back) =
      .error (.fault (.missingOperand op .right offset)) := by
  rw [sweep, getElem?_behind h]
  simp only [ne_eq, not_true_eq_false, if_false, takeOperand_next h]
  match back with
  | [] => rfl
  | .operator _ _ :: _ => rfl
  | .operand o :: rest => exact (hback o rest rfl).elim

/-- A connective complains when no operand is in front of it. -/
theorem sweep_bare_left {c : Connective} (offset : Nat) (right : Operand) (ahead : List Piece)
    (back : Phrase) (hahead : ∀ o rest, ahead = .operand o :: rest → False) :
    sweep (.binary c) (ahead.length + 1)
        (ahead.reverse ++ .operator (.binary c) offset :: .operand right :: back) =
      .error (.fault (.missingOperand (.binary c) .left offset)) := by
  have hbinary : (Operator.binary c).isUnary = false := rfl
  rw [sweep, getElem?_behind List.length_reverse]
  simp only [ne_eq, not_true_eq_false, if_false, takeOperand_next List.length_reverse, ok_bind,
    hbinary, Bool.false_eq_true]
  match ahead with
  | [] => rfl
  | .operand o :: rest => exact (hahead o rest rfl).elim
  | .operator other place :: rest =>
    rw [List.length_cons, List.reverse_cons, List.append_assoc, List.singleton_append]
    simp only [takeOperand_behind List.length_reverse, error_bind]

/-! ## All slots -/

/-- Sweeping the slots in front of a part that is done is what a pass does with the entries in
them. -/
theorem sweep_eq (op : Operator) (ahead : List Piece) (passed : Phrase) :
    sweep op ahead.length (ahead.reverse ++ passed) =
      (passFrom op ahead passed).mapError .fault := by
  -- The slots in front are the entries ahead, so that both go on with one entry less.
  fun_induction passFrom op ahead passed with
  | case1 passed => rfl
  | case2 passed ahead o ih =>
    rw [← ih, List.length_cons, List.reverse_cons, List.append_assoc, List.singleton_append,
      sweep_operand List.length_reverse]
  | case3 passed ahead other offset hne ih =>
    rw [← ih, List.length_cons, List.reverse_cons, List.append_assoc, List.singleton_append,
      sweep_other List.length_reverse hne]
  | case4 offset ahead right passed heq ih =>
    obtain rfl := not_not.mp heq
    rw [List.length_cons, List.reverse_cons, List.append_assoc, List.singleton_append,
      sweep_not List.length_reverse, mapError_bind]
    simp only [ih]
  | case5 offset right passed c left ahead heq ih =>
    obtain rfl := not_not.mp heq
    rw [List.length_cons, List.length_cons, List.reverse_cons, List.reverse_cons,
      List.append_assoc, List.append_assoc, List.singleton_append, List.singleton_append,
      sweep_binary List.length_reverse, mapError_bind]
    simp only [ih]
  | case6 offset ahead right passed c hleft heq =>
    obtain rfl := not_not.mp heq
    rw [List.length_cons, List.reverse_cons, List.append_assoc, List.singleton_append,
      sweep_bare_left offset right ahead passed hleft]
    rfl
  | case7 other offset ahead passed heq hright =>
    obtain rfl := not_not.mp heq
    rw [List.length_cons, List.reverse_cons, List.append_assoc, List.singleton_append,
      sweep_bare_right List.length_reverse offset hright]
    rfl

/-- A pass in place is the pass. -/
theorem passInPlace_eq (p : Phrase) (op : Operator) :
    p.passInPlace op = (p.pass op).mapError .fault := by
  have h := sweep_eq op p.reverse []
  rwa [List.length_reverse, List.reverse_reverse, List.append_nil] at h

/-- A pass in place that succeeds is a pass that succeeds. -/
theorem pass_of_passInPlace (h : p.passInPlace op = .ok q) : p.pass op = .ok q := by
  rw [passInPlace_eq] at h
  exact mapError_eq_ok_iff.mp h

/-- Passes in place that succeed are passes that succeed. -/
theorem foldlM_pass_of_passInPlace {ops : List Operator}
    (h : ops.foldlM passInPlace p = .ok q) : ops.foldlM pass p = .ok q := by
  induction ops generalizing p with
  | nil =>
    cases h
    rfl
  | cons op ops ih =>
    rw [List.foldlM_cons] at h ⊢
    obtain ⟨r, hpass, hrest⟩ := bind_eq_ok_iff.mp h
    rw [pass_of_passInPlace hpass, ok_bind]
    exact ih hrest

/-! ## What a pass keeps -/

/-- The nodes of an entry come before those of the entries behind it. -/
theorem inOrder_cons (piece : Piece) (p : Phrase) :
    inOrder (piece :: p) = piece.inOrder ++ inOrder p :=
  List.flatMap_cons

theorem waiting_operand_cons (o : Operand) (p : Phrase) : waiting (.operand o :: p) = waiting p :=
  rfl

theorem waiting_operator_cons (op : Operator) (offset : Nat) (p : Phrase) :
    waiting (.operator op offset :: p) = (op, offset) :: waiting p :=
  rfl

/-- A pass leaves the nodes in their order. -/
theorem Absorbs.inOrder_eq (h : Absorbs op p q) : q.inOrder = p.inOrder := by
  induction h with
  | nil => rfl
  | operand o _ ih => rw [inOrder_cons, inOrder_cons, ih]
  | other offset _ _ ih => rw [inOrder_cons, inOrder_cons, ih]
  | negate offset _ ih =>
    rw [inOrder_cons (.operator .not offset), ← ih]
    rfl
  | join l offset _ ih =>
    rw [inOrder_cons (.operand l), inOrder_cons (.operator _ offset), ← ih, inOrder_cons,
      inOrder_cons]
    simp [Piece.inOrder, Operand.joined, Tree.inOrder]

/-- A pass leaves the other operators waiting. -/
theorem Absorbs.waiting_eq (h : Absorbs op p q) :
    q.waiting = p.waiting.filter fun waits => waits.1 ≠ op := by
  induction h with
  | nil => rfl
  | operand o _ ih => exact ih
  | other offset hne _ ih => simp [waiting_operator_cons, hne, ih]
  | negate offset _ ih =>
    rw [waiting_operand_cons] at ih
    simp [waiting_operator_cons, waiting_operand_cons, ih]
  | join l offset _ ih =>
    rw [waiting_operand_cons] at ih
    simp [waiting_operator_cons, waiting_operand_cons, ih]

/-- What a pass leaves arose from the stretches of the phrase, one entry from each. -/
theorem Absorbs.exists_stretches (h : Absorbs op p q) :
    ∃ stretches : List Phrase, stretches.flatten = p ∧
      List.Forall₂ Piece.BuiltFrom q stretches := by
  induction h with
  | nil => exact ⟨[], rfl, .nil⟩
  | operand o _ ih =>
    obtain ⟨stretches, rfl, hbuilt⟩ := ih
    exact ⟨[.operand o] :: stretches, rfl, .cons ⟨rfl, .operand o⟩ hbuilt⟩
  | @other _ other _ _ offset _ _ ih =>
    obtain ⟨stretches, rfl, hbuilt⟩ := ih
    exact ⟨[.operator other offset] :: stretches, rfl, .cons ⟨rfl, rfl⟩ hbuilt⟩
  | negate offset _ ih =>
    -- the operand that is taken arose from the first stretch behind the operator
    obtain ⟨stretches, rfl, hbuilt⟩ := ih
    cases hbuilt with
    | cons hright hbuilt => exact ⟨_ :: _, rfl, .cons ⟨rfl, hright.2.not offset⟩ hbuilt⟩
  | join l offset _ ih =>
    obtain ⟨stretches, rfl, hbuilt⟩ := ih
    cases hbuilt with
    | cons hright hbuilt =>
      exact ⟨_ :: _, rfl, .cons ⟨rfl, .join offset (.operand l) hright.2⟩ hbuilt⟩

/-- Once there was a pass for every operator, only operands are left. -/
theorem operand_of_foldlM_pass (h : Operator.precedence.foldlM pass p = .ok q) :
    ∀ piece ∈ q, ∃ o, piece = .operand o := by
  intro piece hmem
  match piece with
  | .operand o => exact ⟨o, rfl⟩
  | .operator op offset =>
    exact absurd op.mem_precedence ((absorbsAll_of_foldlM_pass h).not_mem hmem).1

/-- A pass in place is a pass, and it is only ever the phrase that is at fault. When it succeeds,
its operators are gone, the nodes are in the order in which they were, the other operators still
wait at their bytes, and each entry starts where the stretch of entries starts that it arose from.
When there was a pass for every operator, only operands are left, and so no single operator. -/
theorem passInPlace_invariant (p : Phrase) (op : Operator) :
    p.passInPlace op = (p.pass op).mapError .fault ∧
    (∀ slip, p.passInPlace op ≠ .error (.slip slip)) ∧
    (∀ q, p.passInPlace op = .ok q →
      (∀ offset, Piece.operator op offset ∉ q) ∧
      q.inOrder = p.inOrder ∧
      (q.waiting = p.waiting.filter fun waits => waits.1 ≠ op) ∧
      ∃ stretches : List Phrase, stretches.flatten = p ∧
        List.Forall₂ Piece.BuiltFrom q stretches) ∧
    (∀ q, Operator.precedence.foldlM passInPlace p = .ok q →
      (∀ piece ∈ q, ∃ o, piece = .operand o) ∧ ∀ other offset, q ≠ [.operator other offset]) := by
  refine ⟨passInPlace_eq p op, fun slip h => ?slip, fun q h => ?once, fun q h => ?all⟩
  case slip =>
    rw [passInPlace_eq] at h
    obtain ⟨_, _, heq⟩ := mapError_eq_error_iff.mp h
    cases heq
  case once =>
    have habsorbs := absorbs_of_pass (pass_of_passInPlace h)
    exact ⟨fun offset hmem => (habsorbs.operator_left hmem).1 rfl, habsorbs.inOrder_eq,
      habsorbs.waiting_eq, habsorbs.exists_stretches⟩
  case all =>
    have hoperand := operand_of_foldlM_pass (foldlM_pass_of_passInPlace h)
    refine ⟨hoperand, fun other offset heq => ?_⟩
    obtain ⟨o, ho⟩ := hoperand (.operator other offset) (heq ▸ List.mem_singleton_self _)
    cases ho

/-- The entries of `!a & b & c | a`. -/
def negatedChain : Phrase :=
  [.operator .not 0, .operand (.ofAtom ⟨"a", []⟩ 1), .operator (.binary .and) 3,
    .operand (.ofAtom ⟨"b", []⟩ 5), .operator (.binary .and) 7, .operand (.ofAtom ⟨"c", []⟩ 9),
    .operator (.binary .or) 11, .operand (.ofAtom ⟨"a", []⟩ 13)]

/-- The pass for conjunctions joins the three operands behind the negation, and leaves the negation
in front of them and the disjunction behind them. -/
theorem passInPlace_invariant_of_chain :
    ∃ q, negatedChain.passInPlace (.binary .and) = .ok q ∧
      q.map Piece.offset = [0, 1, 11, 13] ∧
      (∀ offset, Piece.operator (.binary .and) offset ∉ q) ∧
      q.inOrder = negatedChain.inOrder ∧
      q.waiting = [(.not, 0), (.binary .or, 11)] ∧
      ∃ r, Operator.precedence.foldlM passInPlace negatedChain = .ok r ∧
        ∀ piece ∈ r, ∃ o, piece = .operand o := by
  obtain ⟨-, -, honce, hall⟩ := passInPlace_invariant negatedChain (.binary .and)
  have hpass : negatedChain.passInPlace (.binary .and) = .ok
      [.operator .not 0,
        .operand ⟨⟨.join .and (.leaf ⟨"a", []⟩)
          (.join .and (.leaf ⟨"b", []⟩) (.leaf ⟨"c", []⟩)), 3⟩, 1⟩,
        .operator (.binary .or) 11, .operand (.ofAtom ⟨"a", []⟩ 13)] := by decide
  have hpasses : Operator.precedence.foldlM passInPlace negatedChain = .ok
      [.operand ⟨⟨.join .or (.join .and (.not (.leaf ⟨"a", []⟩))
        (.join .and (.leaf ⟨"b", []⟩) (.leaf ⟨"c", []⟩))) (.leaf ⟨"a", []⟩), 4⟩, 0⟩] := by decide
  obtain ⟨hgone, hinOrder, hwaiting, -⟩ := honce _ hpass
  exact ⟨_, hpass, rfl, hgone, hinOrder, hwaiting, _, hpasses, (hall _ hpasses).1⟩

end Phrase

end PredicateExpr
