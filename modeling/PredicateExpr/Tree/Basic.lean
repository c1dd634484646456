import PredicateExpr.Operator

/-!
# Expression trees

An expression is empty, a leaf, a negation, or two expressions joined by a connective. The tree is
generic in what a leaf carries: an atom after parsing, an atom with a callback once it is resolved.

`Tree.leaves` lists the leaves from left to right and `Tree.height` counts levels; both the leaves'
order and the shape survive `Tree.map` and `Tree.traverse`, which visits the leaves in that order.
-/

namespace PredicateExpr

/-- An expression over leaves that carry an `α`. -/
inductive Tree (α : Type)
  /-- The empty expression, written as a group with nothing in it. -/
  | empty
  /-- A single predicate. -/
  | leaf (label : α)
  /-- A negation. -/
  | not (operand : Tree α)
  /-- Two operands under a binary operator. -/
  | join (connective : Connective) (left right : Tree α)
  deriving DecidableEq, Repr

namespace Tree

variable {α β : Type}

/-- Two expressions under an operator, if the operator is one that takes two. -/
def join? : Operator → Tree α → Tree α → Option (Tree α)
  | .not, _, _ => none
  | .binary c, l, r => some (.join c l r)

/-- An expression with every leaf replaced, in place. -/
def map (f : α → β) : Tree α → Tree β
  | .empty => .empty
  | .leaf a => .leaf (f a)
  | .not t => .not (t.map f)
  | .join c l r => .join c (l.map f) (r.map f)

/-- The leaves, from left to right. -/
def leaves : Tree α → List α
  | .empty => []
  | .leaf a => [a]
  | .not t => t.leaves
  | .join _ l r => l.leaves ++ r.leaves

/-- The number of levels: one for a leaf, and one more than the tallest operand. -/
def height : Tree α → Nat
  | .empty => 1
  | .leaf _ => 1
  | .not t => t.height + 1
  | .join _ l r => max l.height r.height + 1

/-- An expression with every leaf replaced by what a computation returns for it. The leaves are
visited from left to right. -/
def traverse {m : Type → Type} [Monad m] (f : α → m β) : Tree α → m (Tree β)
  | .empty => pure .empty
  | .leaf a => do return .leaf (← f a)
  | .not t => do return .not (← t.traverse f)
  | .join c l r => do
    let l ← l.traverse f
    let r ← r.traverse f
    return .join c l r

/-! ## Nodes in order -/

/-- A node of an expression, without its operands. -/
inductive Node (α : Type)
  | empty
  | leaf (label : α)
  | operator (op : Operator)
  deriving DecidableEq, Repr

/-- The nodes, each before its operands and the left operand before the right one. -/
def nodes : Tree α → List (Node α)
  | .empty => [.empty]
  | .leaf a => [.leaf a]
  | .not t => .operator .not :: t.nodes
  | .join c l r => .operator (.binary c) :: (l.nodes ++ r.nodes)

/-! ## What replacing leaves keeps -/

/-- The leaves are replaced one by one. -/
@[simp] theorem leaves_map (f : α → β) (t : Tree α) : (t.map f).leaves = t.leaves.map f := by
  induction t with
  | empty => rfl
  | leaf a => rfl
  | not t ih => exact ih
  | join c l r ihl ihr => simp [map, leaves, ihl, ihr]

theorem map_map {γ : Type} (g : β → γ) (f : α → β) (t : Tree α) :
    (t.map f).map g = t.map (g ∘ f) := by
  induction t with
  | empty => rfl
  | leaf a => rfl
  | not t ih => simp [map, ih]
  | join c l r ihl ihr => simp [map, ihl, ihr]

@[simp] theorem map_id (t : Tree α) : t.map id = t := by
  induction t with
  | empty => rfl
  | leaf a => rfl
  | not t ih => simp [map, ih]
  | join c l r ihl ihr => simp [map, ihl, ihr]

/-! ## What leaves were replaced in -/

theorem map_eq_empty_iff {f : α → β} {t : Tree α} : t.map f = .empty ↔ t = .empty := by
  cases t <;> simp [map]

/-- A leaf comes from a leaf. -/
theorem map_eq_leaf_iff {f : α → β} {t : Tree α} {b : β} :
    t.map f = .leaf b ↔ ∃ a, t = .leaf a ∧ f a = b := by
  cases t <;> simp [map]

/-- A negation comes from a negation, whose operand had its leaves replaced. -/
theorem map_eq_not_iff {f : α → β} {t : Tree α} {u : Tree β} :
    t.map f = .not u ↔ ∃ s, t = .not s ∧ s.map f = u := by
  cases t <;> simp [map]

/-- A joined pair comes from a pair under the same connective. -/
theorem map_eq_join_iff {f : α → β} {t : Tree α} {c : Connective} {u v : Tree β} :
    t.map f = .join c u v ↔ ∃ l r, t = .join c l r ∧ l.map f = u ∧ r.map f = v := by
  cases t with
  | join d l r =>
    simp only [map, join.injEq]
    constructor
    · rintro ⟨rfl, hl, hr⟩
      exact ⟨l, r, ⟨rfl, rfl, rfl⟩, hl, hr⟩
    · rintro ⟨_, _, ⟨rfl, rfl, rfl⟩, hl, hr⟩
      exact ⟨rfl, hl, hr⟩
  | empty | leaf | not => simp [map]

end Tree

end PredicateExpr
