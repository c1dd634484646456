import PredicateExpr.Proofs.Evaluation
import PredicateExpr.Tree.Value

/-!
# Fixed truth values

An evaluation in which every leaf answers with a fixed truth value, whatever else it does, has the
value that the truth tables give (`Tree.evaluate_constant`), so it has it where the leaves are
constant (`Tree.evaluate_of_constant`). Only the leaves of an expression have a part in its value
(`Tree.value_congr`).
-/

namespace PredicateExpr

/-- A constant leaf answers with its value. -/
theorem Leaf.Constant.ask_eq {σ : Type} {leaf : Leaf σ} {value : Bool} (h : leaf.Constant value)
    (run : Run σ) : (leaf.ask run).1 = value := by
  cases h with
  | unresolved => rfl
  | resolved hanswer => exact hanswer run.state

namespace Tree

variable {σ α : Type}

/-- Leaves with fixed answers give an expression its value by the truth tables, although some of
them may not be asked. -/
theorem evaluate_constant {ask : α → StateM σ Bool} {truth : α → Bool} {t : Tree α}
    (h : ∀ a ∈ t.leaves, ∀ s, (ask a s).1 = truth a) (s : σ) :
    (t.evaluate ask s).1 = t.value truth := by
  induction t generalizing s with
  | empty => rfl
  | leaf a => exact h a List.mem_cons_self s
  | not t ih => exact congrArg Bool.not (ih h s)
  | join c l r ihl ihr =>
    have hleaves := List.forall_mem_append.mp h
    have hleft := ihl hleaves.1 s
    have hright := ihr hleaves.2 (l.evaluate ask s).2
    rw [evaluate, Connective.combineM_run, value, ← hleft, ← hright]
    -- where the left operand settles the value, the right one does not change it
    cases c <;> cases (l.evaluate ask s).1 <;> rfl

/-- Constant leaves give an expression its value by the truth tables. -/
theorem evaluate_of_constant {t : Tree (Leaf σ)} {truth : Leaf σ → Bool}
    (h : ∀ leaf ∈ t.leaves, leaf.Constant (truth leaf)) (run : Run σ) :
    (t.evaluate Leaf.ask run).1 = t.value truth :=
  evaluate_constant (fun leaf hleaf => (h leaf hleaf).ask_eq) run

/-- The value of an expression depends on the values of its own leaves only. -/
theorem value_congr {truth truth' : α → Bool} {t : Tree α}
    (h : ∀ a ∈ t.leaves, truth a = truth' a) : t.value truth = t.value truth' := by
  induction t with
  | empty => rfl
  | leaf a => exact h a List.mem_cons_self
  | not t ih => exact congrArg Bool.not (ih h)
  | join c l r ihl ihr =>
    have hleaves := List.forall_mem_append.mp h
    have hleft := ihl hleaves.1
    have hright := ihr hleaves.2
    rw [value, value, hleft, hright]

end Tree

end PredicateExpr
