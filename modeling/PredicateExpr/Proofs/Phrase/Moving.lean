import Mathlib.Tactic.Common
import PredicateExpr.Proofs.Phrase.Passes

/-!
# Moving the entries of a phrase

The bytes at which the entries of a phrase start are handed on, to larger operands and to errors,
and nothing else is done with them. So a phrase whose entries are moved by any function on bytes is
folded to the same expression, or is wrong in the same way at the moved byte (`Phrase.fold_move`).
-/

namespace PredicateExpr

variable {α β γ δ : Type}

/-! ## Moved outcomes -/

/-- The outcome of a step with its result changed, and with its error moved. -/
def moved (f : Nat → Nat) (g : α → β) (outcome : Except CompileError α) : Except CompileError β :=
  (outcome.map g).mapError (CompileError.mapOffset f)

section Moved

variable {f : Nat → Nat} {g : α → β}

/-- A success has its result changed. -/
@[simp] theorem moved_ok (a : α) : moved f g (.ok a) = .ok (g a) := rfl

/-- A failure has its error moved. -/
theorem moved_error (e : CompileError) : moved f g (.error e) = .error (e.mapOffset f) :=
  rfl

/-- Steps with moved outcomes have a moved outcome together. -/
theorem moved_bind {h : γ → δ} {x : Except CompileError α} {y : Except CompileError β}
    {k : α → Except CompileError γ} {l : β → Except CompileError δ} (hxy : y = moved f g x)
    (hkl : ∀ a, l (g a) = moved f h (k a)) : y >>= l = moved f h (x >>= k) := by
  rw [hxy]
  cases x with
  | error e => rfl
  | ok a => exact hkl a

end Moved

/-! ## Moved entries -/

/-- An operand that starts elsewhere. -/
def Operand.move (f : Nat → Nat) (o : Operand) : Operand :=
  ⟨o.toMeasured, f o.offset⟩

/-- An entry that starts elsewhere. -/
def Piece.move (f : Nat → Nat) : Piece → Piece
  | .operator op offset => .operator op (f offset)
  | .operand o => .operand (o.move f)

/-- A moved entry starts at the moved byte. -/
@[simp] theorem Piece.offset_move (f : Nat → Nat) (piece : Piece) :
    (piece.move f).offset = f piece.offset := by
  cases piece <;> rfl

/-- Whether an operand is accepted does not depend on where it starts. -/
theorem Operand.accept_move (f : Nat → Nat) (o : Operand) :
    (o.move f).accept = moved f (move f) o.accept := by
  unfold accept
  by_cases hlt : maxDepth < o.height
  · have hlt' : maxDepth < (o.move f).height := hlt
    rw [if_pos hlt, if_pos hlt']
    rfl
  · have hle : ¬maxDepth < (o.move f).height := hlt
    rw [if_neg hlt, if_neg hle]
    rfl

namespace Phrase

/-- A phrase whose entries start elsewhere. -/
def move (f : Nat → Nat) (phrase : Phrase) : Phrase :=
  phrase.map (Piece.move f)

variable (f : Nat → Nat)

/-- A pass does the same to a moved phrase. -/
theorem passFrom_move (op : Operator) (ahead : List Piece) (passed : Phrase) :
    passFrom op (ahead.map (Piece.move f)) (move f passed) =
      moved f (move f) (passFrom op ahead passed) := by
  -- each case takes the same entries from the moved phrase as from the phrase
  fun_induction passFrom op ahead passed with
  | case1 passed => rfl
  | case2 passed ahead o ih => exact ih
  | case3 other offset ahead passed hne ih =>
    have hmoved := passFrom_other hne (f offset) (ahead.map (Piece.move f)) (move f passed)
    exact hmoved.trans ih
  | case4 offset ahead right passed heq ih =>
    obtain rfl := not_not.mp heq
    have hmoved := passFrom_not (f offset) (ahead.map (Piece.move f)) (right.move f) (move f passed)
    have haccept := Operand.accept_move f (right.negated offset)
    exact hmoved.trans (moved_bind haccept ih)
  | case5 offset right passed c left ahead heq ih =>
    obtain rfl := not_not.mp heq
    have hmoved := passFrom_binary c (f offset) (left.move f) (right.move f)
      (ahead.map (Piece.move f)) (move f passed)
    have haccept := Operand.accept_move f (.joined c left right)
    exact hmoved.trans (moved_bind haccept ih)
  | case6 offset ahead right passed c hnone heq =>
    obtain rfl := not_not.mp heq
    cases ahead with
    | nil => simp [move, Piece.move, passFrom, moved_error, CompileError.mapOffset]
    | cons piece ahead =>
      cases piece with
      | operator other place =>
        simp [move, Piece.move, passFrom, moved_error, CompileError.mapOffset]
      | operand left => exact (hnone left ahead rfl).elim
  | case7 other offset ahead passed heq hnone =>
    obtain rfl := not_not.mp heq
    cases passed with
    | nil => simp [move, Piece.move, passFrom, moved_error, CompileError.mapOffset]
    | cons piece passed =>
      cases piece with
      | operator other place =>
        simp [move, Piece.move, passFrom, moved_error, CompileError.mapOffset]
      | operand right => exact (hnone right passed rfl).elim

/-- So does a pass over a whole phrase. -/
theorem pass_move (op : Operator) (phrase : Phrase) :
    pass (move f phrase) op = moved f (move f) (pass phrase op) := by
  have hreverse : (move f phrase).reverse = phrase.reverse.map (Piece.move f) :=
    List.map_reverse.symm
  rw [pass, hreverse]
  exact passFrom_move f op phrase.reverse []

/-- So do several passes. -/
theorem foldlM_pass_move (ops : List Operator) (phrase : Phrase) :
    ops.foldlM pass (move f phrase) = moved f (move f) (ops.foldlM pass phrase) := by
  induction ops generalizing phrase with
  | nil => rfl
  | cons op ops ih =>
    rw [List.foldlM_cons, List.foldlM_cons]
    exact moved_bind (pass_move f op phrase) ih

/-- What is left of a moved phrase amounts to the same. -/
theorem only_move (phrase : Phrase) : only (move f phrase) = moved f id (only phrase) := by
  cases phrase with
  | nil => rfl
  | cons first others =>
    cases others with
    | nil => cases first <;> rfl
    | cons extra others =>
      have hmoved : move f (first :: extra :: others) =
          first.move f :: extra.move f :: move f others := rfl
      rw [hmoved, only, only, moved_error, CompileError.mapOffset, Piece.offset_move]

/-- A moved phrase amounts to the same expression, or what is wrong with it is moved. -/
theorem fold_move (phrase : Phrase) : fold (move f phrase) = moved f id (fold phrase) :=
  moved_bind (foldlM_pass_move f Operator.precedence phrase) (only_move f)

end Phrase

end PredicateExpr
