import Mathlib.Data.List.Infix
import PredicateExpr.Evaluation
import PredicateExpr.Tree.Path

/-!
# Accounts of an evaluation

An evaluation seen as a whole is a value for each operand that has a part in it. Which operands have
one follows from the values: all of them, but for those in the right operand of a conjunction whose
left operand is false, or of a disjunction whose left operand is true (`Tree.Omitted`). From the
values it also follows which callbacks are called, what they answer, and in which order.

`Tree.Accounts` collects what these values must satisfy. It says nothing of how they are computed.
-/

namespace PredicateExpr

/-- Whether a connective omits its right operand, given the value of the left one. -/
def Connective.OmitsRight (c : Connective) (left : Bool) : Prop :=
  c = .and ∧ left = false ∨ c = .or ∧ left = true

instance (c : Connective) (left : Bool) : Decidable (c.OmitsRight left) :=
  inferInstanceAs (Decidable (_ ∨ _))

namespace Tree

variable {α σ : Type}

/-! ## Operands that have no part in an evaluation -/

/-- An operand is omitted if it lies in the right operand of a connective that omits it. -/
def Omitted (t : Tree α) (values : Path → Bool) (p : Path) : Prop :=
  ∃ q c l r, t.at? q = some (.join c l r) ∧ c.OmitsRight (values (q ++ [.left])) ∧
    q ++ [.right] <+: p

/-- An operand at a path that has a part in the evaluation. -/
def Reached (t : Tree α) (values : Path → Bool) (p : Path) (s : Tree α) : Prop :=
  t.at? p = some s ∧ ¬ t.Omitted values p

/-- Whether a connective above a path omits what the path leads to. -/
def omittedAt (t : Tree α) (values : Path → Bool) (p q : Path) : Bool :=
  match t.at? q with
  | some (.join c _ _) => c.OmitsRight (values (q ++ [.left])) ∧ q ++ [.right] <+: p
  | _ => false

/-- An operand is omitted by a connective on the way to it, so that only beginnings of its path need
to be tried. -/
theorem omitted_iff_exists_inits {t : Tree α} {values : Path → Bool} {p : Path} :
    t.Omitted values p ↔ ∃ q ∈ p.inits, t.omittedAt values p q = true := by
  constructor
  · rintro ⟨q, c, l, r, hat, homits, hprefix⟩
    have hq : q <+: p := (List.prefix_append q [.right]).trans hprefix
    refine ⟨q, (List.mem_inits q p).mpr hq, ?_⟩
    rw [omittedAt, hat]
    exact decide_eq_true ⟨homits, hprefix⟩
  · rintro ⟨q, -, hq⟩
    unfold omittedAt at hq
    split at hq
    case h_1 c l r hat =>
      obtain ⟨homits, hprefix⟩ := of_decide_eq_true hq
      exact ⟨q, c, l, r, hat, homits, hprefix⟩
    case h_2 => cases hq

instance (t : Tree α) (values : Path → Bool) (p : Path) : Decidable (t.Omitted values p) :=
  decidable_of_iff _ omitted_iff_exists_inits.symm

/-! ## Values and calls -/

/-- What the value at a path is, by what stands there and by the values of its operands. The right
operand of a connective that omits it may have any value. -/
def HasValue (values : Path → Bool) (p : Path) : Tree (Leaf σ) → Prop
  | .empty => values p = true
  | .leaf label => label.resolved = false → values p = true
  | .not _ => values p = !values (p ++ [.operand])
  | .join c _ _ => ∀ b, b = values (p ++ [.right]) ∨ c.OmitsRight (values (p ++ [.left])) →
    values p = c.combine (values (p ++ [.left])) b

/-- The operands that have a part in an evaluation have the values that their own operands give
them. -/
def HasValues (t : Tree (Leaf σ)) (values : Path → Bool) : Prop :=
  ∀ p s, t.Reached values p s → HasValue values p s

/-- The resolved leaves that have a part in an evaluation, from left to right. -/
def called (t : Tree (Leaf σ)) (values : Path → Bool) : List (Path × Leaf σ) :=
  t.leavesByPath.filter fun x => x.2.resolved ∧ ¬ t.Omitted values x.1

/-- A leaf at a path, with its value. -/
def answer (values : Path → Bool) (x : Path × Leaf σ) : Leaf σ × Bool :=
  (x.2, values x.1)

end Tree

/-- The callbacks of some leaves, called one after the other, give these answers and lead from the
first state to the last. -/
inductive Calls {σ : Type} : σ → List (Leaf σ × Bool) → σ → Prop
  | nil {state : σ} : Calls state [] state
  | cons {state next later : σ} {leaf : Leaf σ} {callback : Callback σ} {answer : Bool}
      {others : List (Leaf σ × Bool)} :
      leaf.callback? = some callback → callback state = (answer, next) →
      Calls next others later → Calls state ((leaf, answer) :: others) later

namespace Tree

variable {σ : Type}

/-- Values for the operands of an expression that account for the outcome of an evaluation. -/
structure Accounts (t : Tree (Leaf σ)) (values : Path → Bool) (state : σ)
    (outcome : Bool × Run σ) : Prop where
  /-- The values are those that empty expressions, unresolved leaves and operations have. -/
  operands : t.HasValues values
  /-- The outcome has the value of the whole expression. -/
  value : outcome.1 = values []
  /-- It has the calls of all resolved leaves that are not omitted, from left to right. -/
  calls : outcome.2.calls = (t.called values).map fun x => x.2.atom
  /-- These calls, and no others, give the values of these leaves and lead to the last state. -/
  later : Calls state ((t.called values).map (answer values)) outcome.2.state

/-- The part that the operand at a path takes in an evaluation. Its calls stand together, it is
evaluated in the state to which the calls before them lead, and the values below the path account
for what it then evaluates to. -/
def TakesPart (t : Tree (Leaf σ)) (values : Path → Bool) (state : σ) (p : Path)
    (s : Tree (Leaf σ)) : Prop :=
  ∃ before behind start,
    t.called values = before ++ (s.called (within p values)).map (under p) ++ behind ∧
      Calls state (before.map (answer values)) start ∧
        s.Accounts (within p values) start (s.evaluate Leaf.ask ⟨start, []⟩)

end Tree

end PredicateExpr
