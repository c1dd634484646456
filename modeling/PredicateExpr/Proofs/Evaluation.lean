import Mathlib.Tactic.Common
import PredicateExpr.Condition.Basic

/-!
# Laws of evaluation

Joining is associative, whatever the operands do to the state (`Connective.combineM_assoc`). The
calls of an evaluation do not depend on the calls before it (`AddsCalls.evaluate`), so that a
condition whose operands are conditions runs them one after the other; `Condition.runJoined` says
when the second one runs at all.
-/

namespace PredicateExpr

/-! ## Joining computations -/

/-- It does not matter how a row of computations under one connective is bracketed. -/
theorem Connective.combineM_assoc {m : Type → Type} [Monad m] [LawfulMonad m] (c : Connective)
    (x y z : m Bool) :
    c.combineM (c.combineM x y) z = c.combineM x (c.combineM y z) := by
  cases c with
  | and =>
    simp only [combineM, bind_assoc]
    refine bind_congr fun a => ?_
    cases a <;> simp
  | or =>
    simp only [combineM, bind_assoc]
    refine bind_congr fun a => ?_
    cases a <;> simp
  | xor =>
    simp only [combineM, bind_assoc, pure_bind]
    refine bind_congr fun a => bind_congr fun b => bind_congr fun d => ?_
    rw [Bool.xor_assoc]

/-- A replaced leaf is asked through what replaces it. -/
theorem Tree.evaluate_map {m : Type → Type} [Monad m] {α β : Type} (ask : β → m Bool)
    (f : α → β) (t : Tree α) : (t.map f).evaluate ask = t.evaluate fun a => ask (f a) := by
  induction t with
  | empty => rfl
  | leaf a => rfl
  | not t ih => rw [map, evaluate, evaluate, ih]
  | join c l r ihl ihr => rw [map, evaluate, evaluate, ihl, ihr]

/-- Computations that do nothing but return replace the leaves in place. -/
theorem Tree.traverse_pure {m : Type → Type} [Monad m] [LawfulMonad m] {α β : Type} (f : α → β)
    (t : Tree α) : (t.traverse fun a => (pure (f a) : m β)) = pure (t.map f) := by
  induction t with
  | empty => rfl
  | leaf a => simp [traverse, map]
  | not t ih => simp [traverse, map, ih]
  | join c l r ihl ihr => simp [traverse, map, ihl, ihr]

variable {σ α β : Type}

/-! ## Calls -/

/-- A computation that adds its calls to those made before, and does not look at them. -/
def AddsCalls (x : StateM (Run σ) α) : Prop :=
  ∀ (state : σ) (calls : List Atom),
    x ⟨state, calls⟩ =
      ((x ⟨state, []⟩).1, ⟨(x ⟨state, []⟩).2.state, calls ++ (x ⟨state, []⟩).2.calls⟩)

namespace AddsCalls

/-- A computation that only has a result makes no calls. -/
theorem pure (a : α) : AddsCalls (pure a : StateM (Run σ) α) := by
  intro state calls
  change (a, (⟨state, calls⟩ : Run σ)) = (a, ⟨state, calls ++ []⟩)
  rw [List.append_nil]

/-- Where a computation and what follows it add their calls, both together do. -/
theorem bind {x : StateM (Run σ) α} {f : α → StateM (Run σ) β} (hx : AddsCalls x)
    (hf : ∀ a, AddsCalls (f a)) : AddsCalls (x >>= f) := by
  intro state calls
  change f (x ⟨state, calls⟩).1 (x ⟨state, calls⟩).2 =
    ((f (x ⟨state, []⟩).1 (x ⟨state, []⟩).2).1,
      ⟨(f (x ⟨state, []⟩).1 (x ⟨state, []⟩).2).2.state,
        calls ++ (f (x ⟨state, []⟩).1 (x ⟨state, []⟩).2).2.calls⟩)
  rw [hx state calls]
  obtain ⟨a, ⟨between, made⟩⟩ := x ⟨state, []⟩
  change f a ⟨between, calls ++ made⟩ = _
  rw [hf a between (calls ++ made), hf a between made]
  simp only [List.append_assoc]

/-- A leaf adds its call, if it has a callback. -/
theorem ask (leaf : Leaf σ) : AddsCalls leaf.ask := by
  intro state calls
  unfold Leaf.ask
  cases leaf.callback? with
  | none =>
    change (true, (⟨state, calls⟩ : Run σ)) = (true, ⟨state, calls ++ []⟩)
    rw [List.append_nil]
  | some callback => rfl

/-- A connective adds the calls of the operands that it evaluates. -/
theorem combineM {x y : StateM (Run σ) Bool} (c : Connective) (hx : AddsCalls x)
    (hy : AddsCalls y) : AddsCalls (c.combineM x y) := by
  cases c with
  | and =>
    refine hx.bind fun a => ?_
    cases a with
    | false => exact pure false
    | true => exact hy
  | or =>
    refine hx.bind fun a => ?_
    cases a with
    | false => exact hy
    | true => exact pure true
  | xor => exact hx.bind fun a => hy.bind fun b => pure _

/-- An evaluation adds its calls to those made before. -/
theorem evaluate (t : Tree (Leaf σ)) : AddsCalls (t.evaluate Leaf.ask) := by
  induction t with
  | empty => exact pure true
  | leaf leaf => exact ask leaf
  | not t ih => exact ih.bind fun a => pure _
  | join c l r ihl ihr => exact combineM c ihl ihr

end AddsCalls

/-! ## Conditions under a connective -/

/-- The value that a connective has whatever its right operand is, given that of the left one. -/
def Connective.settled? : Connective → Bool → Option Bool
  | .and, false => some false
  | .or, true => some true
  | _, _ => none

/-- Joined computations run one after the other, unless the first one settles the value. -/
theorem Connective.combineM_run (c : Connective) (x y : StateM σ Bool) (s : σ) :
    c.combineM x y s =
      match c.settled? (x s).1 with
      | some value => (value, (x s).2)
      | none => (c.combine (x s).1 (y (x s).2).1, (y (x s).2).2) := by
  cases c with
  | and =>
    change (if (x s).1 then y else Pure.pure false : StateM σ Bool) (x s).2 = _
    cases (x s).1 <;> rfl
  | or =>
    change (if (x s).1 then Pure.pure true else y : StateM σ Bool) (x s).2 = _
    cases (x s).1 <;> rfl
  | xor => rfl

namespace Condition

/-- Two conditions run one after the other under a connective. The second one does not run where
the first one settles the value. -/
def runJoined (c : Connective) (left right : Condition σ) (state : σ) : Bool × Run σ :=
  let (a, run) := left.run state
  match c.settled? a with
  | some value => (value, run)
  | none =>
    let (b, later) := right.run run.state
    (c.combine a b, ⟨later.state, run.calls ++ later.calls⟩)

/-- A condition that runs to the opposite value. -/
def runNegated (condition : Condition σ) (state : σ) : Bool × Run σ :=
  let (a, run) := condition.run state
  (!a, run)

/-- The condition for an expression, put to a resolver whose answers are known in advance. -/
def resolved (answer : Atom → Option (Callback σ)) (t : Tree Atom) : Condition σ :=
  Id.run ((ofTree t).rebind (.ofFunction answer))

/-- Every leaf of a resolved condition has the callback that the resolver has for its atom. -/
theorem root_resolved (answer : Atom → Option (Callback σ)) (t : Tree Atom) :
    (resolved answer t).root = t.map fun atom => ⟨atom, answer atom⟩ := by
  have htraverse := Tree.traverse_pure (m := Id)
    (fun leaf : Leaf σ => { leaf with callback? := answer leaf.atom }) (t.map Leaf.unresolved)
  rw [Tree.map_map] at htraverse
  exact htraverse

/-- Evaluating a resolved condition asks the resolver's callback at each leaf. -/
theorem evaluate_resolved (answer : Atom → Option (Callback σ)) (t : Tree Atom) :
    (resolved answer t).evaluate =
      t.evaluate fun atom => Leaf.ask ⟨atom, answer atom⟩ := by
  rw [evaluate, root_resolved, Tree.evaluate_map]

/-- A tree that evaluates like two others under a connective runs like them, one after the
other. -/
theorem run_resolved_of_evaluate {answer : Atom → Option (Callback σ)} {t l r : Tree Atom}
    {c : Connective}
    (h : ∀ ask : Atom → StateM (Run σ) Bool,
      t.evaluate ask = c.combineM (l.evaluate ask) (r.evaluate ask)) (state : σ) :
    (resolved answer t).run state =
      runJoined c (resolved answer l) (resolved answer r) state := by
  have hadds : ∀ s : Tree Atom, AddsCalls (resolved answer s).evaluate :=
    fun s => .evaluate (resolved answer s).root
  have hjoin : (resolved answer t).evaluate =
      c.combineM (resolved answer l).evaluate (resolved answer r).evaluate := by
    simp only [evaluate_resolved, h]
  unfold runJoined run
  rw [hjoin, Connective.combineM_run]
  generalize (resolved answer l).evaluate ⟨state, []⟩ = first
  obtain ⟨a, ⟨between, made⟩⟩ := first
  cases hsettled : c.settled? a with
  | some value => simp only [hsettled]
  | none =>
    simp only [hsettled]
    rw [hadds r between made]
    rfl

/-- A negation runs like its operand, to the opposite value. -/
theorem run_resolved_not (answer : Atom → Option (Callback σ)) (t : Tree Atom) (state : σ) :
    (resolved answer (.not t)).run state = runNegated (resolved answer t) state := by
  unfold runNegated run
  rw [evaluate_resolved, evaluate_resolved]
  rfl

end Condition

end PredicateExpr
