import PredicateExpr.Evaluation

/-!
# Truth values of expressions

Where every leaf has a fixed truth value, an expression has one by the truth tables of its
operators, `Tree.value`. `Leaf.Constant` says of a leaf with a callback, or without one, that its
truth value is fixed.
-/

namespace PredicateExpr

/-- The truth value of an expression, given those of its leaves. -/
def Tree.value {α : Type} (truth : α → Bool) : Tree α → Bool
  | .empty => true
  | .leaf a => truth a
  | .not t => !t.value truth
  | .join c l r => c.combine (l.value truth) (r.value truth)

/-- A leaf that has one value in every state. Without a callback it is true; a callback may do to
the state whatever it does, as long as its answer is always the same. -/
inductive Leaf.Constant {σ : Type} : Leaf σ → Bool → Prop
  | unresolved {atom : Atom} : Constant ⟨atom, none⟩ true
  | resolved {atom : Atom} {callback : Callback σ} {value : Bool} :
      (∀ state, (callback state).1 = value) → Constant ⟨atom, some callback⟩ value

end PredicateExpr
