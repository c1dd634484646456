import PredicateExpr.Proofs.Course
import PredicateExpr.Proofs.Values
import PredicateExpr.Tree.Regrouping

/-!
# Evaluation and truth tables

An evaluation goes through an expression in an order and leaves operands out on the way, and which
callbacks it calls depends on both. Where the leaves are constant its result depends on neither: it
is the value by the truth tables, for which every operand counts (`Tree.evaluate_truth_table`). So
the result is the same each time, and the operands of a connective can change places.
-/

namespace PredicateExpr

/-- To a truth table it does not matter which operand comes first. -/
theorem Connective.combine_comm (c : Connective) (x y : Bool) : c.combine x y = c.combine y x := by
  cases c with
  | and => exact Bool.and_comm x y
  | xor => exact Bool.xor_comm x y
  | or => exact Bool.or_comm x y

namespace Tree.Swapped

variable {α : Type} {s t : Tree α}

/-- Expressions with swapped operands have the same leaves, in another order. -/
theorem perm_leaves (h : Swapped s t) : s.leaves.Perm t.leaves := by
  induction h with
  | empty => exact List.Perm.refl _
  | leaf a => exact List.Perm.refl _
  | not _ ih => exact ih
  | join c _ _ ihl ihr => exact ihl.append ihr
  | swap c _ _ ihl ihr => exact (ihl.append ihr).trans List.perm_append_comm

/-- Expressions with swapped operands have the same value by the truth tables. -/
theorem value_eq (h : Swapped s t) (truth : α → Bool) : s.value truth = t.value truth := by
  induction h with
  | empty => rfl
  | leaf a => rfl
  | not _ ih => rw [value, value, ih]
  | join c _ _ ihl ihr => rw [value, value, ihl, ihr]
  | swap c _ _ ihl ihr => rw [value, value, ihl, ihr, Connective.combine_comm]

end Tree.Swapped

namespace Session

variable {σ : Type}

/-- The value of an action is that of the condition as it stands. -/
theorem value_of_act {session : Session σ} {action : Action σ} {value : Bool} {calls : List Atom}
    (h : (session.act action).1 = some (value, calls)) :
    value = (session.condition.run session.state).1 := by
  cases action with
  | evaluate =>
    cases h
    rfl
  | rebind resolver => cases h
  | change f => cases h

/-- A condition that has one value in every state has it each time, until its leaves are put to a
resolver again. -/
theorem value_of_mem_outcomes {session : Session σ} {constant : Bool}
    (h : ∀ state, (session.condition.run state).1 = constant) {actions : List (Action σ)}
    (hactions : ∀ action ∈ actions, action.isRebind = false) {value : Bool} {calls : List Atom}
    (hmem : some (value, calls) ∈ session.outcomes actions) : value = constant := by
  induction actions generalizing session with
  | nil => cases hmem
  | cons action later ih =>
    rw [List.forall_mem_cons] at hactions
    have hcondition := condition_act hactions.1 session
    rw [outcomes, List.mem_cons] at hmem
    rcases hmem with hfirst | hlater
    · exact (value_of_act hfirst.symm).trans (h _)
    · refine ih ?_ hactions.2 hlater
      rw [hcondition]
      exact h

end Session

namespace Tree

variable {σ : Type}

/-- Where the leaves of an expression are constant it evaluates to its value by the truth tables,
whatever callbacks are not called for it. It does so each time it is evaluated, whatever is done to
the state in between, and so does every expression that differs from it in the order of operands
only. -/
theorem evaluate_truth_table {t : Tree (Leaf σ)} {truth : Leaf σ → Bool}
    (h : ∀ leaf ∈ t.leaves, leaf.Constant (truth leaf)) :
    (∀ run, (t.evaluate Leaf.ask run).1 = t.value truth) ∧
    (∀ (session : Session σ) (actions : List (Action σ)), session.condition.root = t →
      (∀ action ∈ actions, action.isRebind = false) →
      ∀ value calls, some (value, calls) ∈ session.outcomes actions → value = t.value truth) ∧
    ∀ s, Swapped t s → ∀ run, (s.evaluate Leaf.ask run).1 = (t.evaluate Leaf.ask run).1 := by
  refine ⟨evaluate_of_constant h, ?_, ?_⟩
  · intro session actions hroot hactions value calls hmem
    subst hroot
    have hconstant : ∀ state,
        (session.condition.run state).1 = session.condition.root.value truth :=
      fun state => evaluate_of_constant h ⟨state, []⟩
    exact Session.value_of_mem_outcomes hconstant hactions hmem
  · intro s hswapped run
    have hs : ∀ leaf ∈ s.leaves, leaf.Constant (truth leaf) :=
      fun leaf hleaf => h leaf (hswapped.perm_leaves.mem_iff.mpr hleaf)
    rw [evaluate_of_constant hs, evaluate_of_constant h, hswapped.value_eq]

/-- A leaf with a constant answer whose callback counts the calls. -/
def counting (name : String) (answer : Bool) : Tree (Leaf Nat) :=
  .leaf ⟨⟨name, []⟩, some fun count => (answer, count + 1)⟩

/-- An expression with constant leaves, of which one is not resolved. -/
def counted : Tree (Leaf Nat) :=
  .join .or (.join .and (counting "a" false) (counting "b" true))
    (.join .xor (.leaf (.unresolved ⟨"z", []⟩)) (.not .empty))

/-- The same expression with the operands of two connectives swapped. -/
def countedSwapped : Tree (Leaf Nat) :=
  .join .or (.join .xor (.not .empty) (.leaf (.unresolved ⟨"z", []⟩)))
    (.join .and (counting "a" false) (counting "b" true))

/-- Other callbacks are called once operands are swapped, and the state is not the same the second
time, but the value is. -/
theorem evaluate_truth_table_of_counted :
    Swapped counted countedSwapped ∧
    (counted.evaluate Leaf.ask ⟨0, []⟩).1 = counted.value (fun leaf => leaf.atom.name != "a") ∧
    (∀ value calls, some (value, calls) ∈ Session.outcomes ⟨⟨counted, true⟩, 0⟩
        [.evaluate, .change (· + 5), .evaluate] →
      value = counted.value (fun leaf => leaf.atom.name != "a")) ∧
    (countedSwapped.evaluate Leaf.ask ⟨0, []⟩).1 = (counted.evaluate Leaf.ask ⟨0, []⟩).1 ∧
    counted.value (fun leaf => leaf.atom.name != "a") = true ∧
    (counted.evaluate Leaf.ask ⟨0, []⟩).2.calls = [⟨"a", []⟩] ∧
    (countedSwapped.evaluate Leaf.ask ⟨0, []⟩).2.calls = [] := by
  have hconstant : ∀ leaf ∈ counted.leaves, leaf.Constant (leaf.atom.name != "a") := by
    have hleaves : counted.leaves = [⟨⟨"a", []⟩, some fun count => (false, count + 1)⟩,
        ⟨⟨"b", []⟩, some fun count => (true, count + 1)⟩, ⟨⟨"z", []⟩, none⟩] := rfl
    rw [hleaves, List.forall_mem_cons, List.forall_mem_cons, List.forall_mem_singleton]
    exact ⟨.resolved fun _ => rfl, .resolved fun _ => rfl, .unresolved⟩
  have hswapped : Swapped counted countedSwapped :=
    .swap .or (.join .and (.leaf _) (.leaf _)) (.swap .xor (.leaf _) (.not .empty))
  obtain ⟨hvalue, htimes, hswap⟩ := evaluate_truth_table hconstant
  refine ⟨hswapped, hvalue _, ?_, hswap _ hswapped _, rfl, rfl, rfl⟩
  exact htimes ⟨⟨counted, true⟩, 0⟩ _ rfl (by simp [Action.isRebind])

end Tree

end PredicateExpr
