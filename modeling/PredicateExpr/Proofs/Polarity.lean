import Mathlib.Algebra.Ring.Parity
import PredicateExpr.Proofs.Values
import PredicateExpr.Tree.InOrder
import PredicateExpr.Tree.Path

/-!
# Polarity

Without exclusive disjunctions an expression rises with its leaves under an even number of negations
and falls with those under an odd number (`Tree.rises_value`). Two bindings of one expression are
compared leaf by leaf, and the comparison turns round at every negation: `Rises` counts the
negations around an operand, so that an operand of a negation is treated like any other. What this
means for evaluation is `Tree.evaluate_polarity`.
-/

namespace PredicateExpr

/-- A leaf that is not resolved is true. -/
theorem Leaf.Constant.eq_true_of_resolved {σ : Type} {leaf : Leaf σ} {value : Bool}
    (h : leaf.Constant value) (hresolved : leaf.resolved = false) : value = true := by
  cases h with
  | unresolved => rfl
  | resolved => cases hresolved

/-! ## Values that rise -/

/-- The second truth value is at least the first one, seen from outside a number of negations. Each
negation turns the comparison round. -/
def Rises : (negations : Nat) → Bool → Bool → Prop
  | 0, x, y => x = true → y = true
  | negations + 1, x, y => Rises negations y x

/-- Only the parity of the negations matters. -/
theorem rises_iff {negations : Nat} {x y : Bool} :
    Rises negations x y ↔
      (Even negations → x = true → y = true) ∧ (Odd negations → y = true → x = true) := by
  induction negations generalizing x y with
  | zero => simp [Rises]
  | succ negations ih =>
    rw [Rises, ih, Nat.even_add_one, Nat.odd_add_one, Nat.not_even_iff_odd, Nat.not_odd_iff_even]
    exact and_comm

namespace Rises

variable {negations : Nat} {x y x' y' : Bool}

theorem refl (negations : Nat) (x : Bool) : Rises negations x x :=
  rises_iff.mpr ⟨fun _ => id, fun _ => id⟩

/-- A negation rises where its operand falls. -/
theorem not (h : Rises (negations + 1) x y) : Rises negations (!x) (!y) := by
  induction negations generalizing x y with
  | zero => cases x <;> cases y <;> simp_all [Rises]
  | succ negations ih => exact ih h

/-- Conjunctions and disjunctions rise where their operands do. -/
theorem combine {c : Connective} (hc : c ≠ .xor) (hl : Rises negations x y)
    (hr : Rises negations x' y') : Rises negations (c.combine x x') (c.combine y y') := by
  induction negations generalizing x y x' y' with
  | zero =>
    intro hvalue
    cases c with
    | and =>
      rw [Connective.combine, Bool.and_eq_true] at hvalue ⊢
      exact ⟨hl hvalue.1, hr hvalue.2⟩
    | xor => exact absurd rfl hc
    | or =>
      rw [Connective.combine, Bool.or_eq_true] at hvalue ⊢
      exact hvalue.imp hl hr
  | succ negations ih => exact ih hl hr

end Rises

namespace Tree

variable {σ α β : Type}

/-! ## Values of expressions -/

/-- Where the leaves of an expression rise or fall by the negations around them, so does its
value. -/
theorem rises_value {f : α → β} {truth : α → Bool} {s t : Tree α} (hsame : s.map f = t.map f)
    (hxor : Operator.binary .xor ∉ s.operators) {negations : Nat}
    (h : ∀ p a b, s.at? p = some (.leaf a) → t.at? p = some (.leaf b) →
      Rises (negations + p.count .operand) (truth a) (truth b)) :
    Rises negations (s.value truth) (t.value truth) := by
  induction s generalizing t negations with
  | empty =>
    obtain rfl := map_eq_empty_iff.mp hsame.symm
    exact .refl _ true
  | leaf a =>
    obtain ⟨b, rfl, -⟩ := map_eq_leaf_iff.mp hsame.symm
    exact h [] a b rfl rfl
  | not s ih =>
    obtain ⟨t, rfl, hoperand⟩ := map_eq_not_iff.mp hsame.symm
    rw [operators_not, List.mem_cons, not_or] at hxor
    -- seen from inside there is one more negation around, and one less on the way to a leaf
    refine Rises.not (ih hoperand.symm hxor.2 ?_)
    intro p a b ha hb
    have hrises := h (.operand :: p) a b ha hb
    rw [List.count_cons_self] at hrises
    rwa [Nat.add_right_comm]
  | join c l r ihl ihr =>
    obtain ⟨l', r', rfl, hl, hr⟩ := map_eq_join_iff.mp hsame.symm
    rw [operators_join, List.mem_append, List.mem_cons, not_or, not_or] at hxor
    have hc : c ≠ .xor := by
      rintro rfl
      exact hxor.2.1 rfl
    have hleft := ihl hl.symm hxor.1 fun p a b ha hb => h (.left :: p) a b ha hb
    have hright := ihr hr.symm hxor.2.2 fun p a b ha hb => h (.right :: p) a b ha hb
    exact Rises.combine hc hleft hright

/-- In an expression without negations no path leads through one. -/
theorem count_operand_of_at? {s u : Tree α} (hnot : Operator.not ∉ s.operators) {p : Path}
    (h : s.at? p = some u) : p.count .operand = 0 := by
  induction s generalizing p with
  | empty | leaf =>
    cases p with
    | nil => rfl
    | cons turn p => simp at h
  | not s _ =>
    rw [operators_not] at hnot
    exact absurd List.mem_cons_self hnot
  | join c l r ihl ihr =>
    rw [operators_join, List.mem_append, List.mem_cons, not_or, not_or] at hnot
    match p, h with
    | [], _ => rfl
    | .left :: p, h => simpa using ihl hnot.1 h
    | .right :: p, h => simpa using ihr hnot.2.2 h

/-! ## Two bindings -/

/-- Two bindings of an expression without exclusive disjunctions by constant leaves. The second one
makes it true where the first one does, if it makes no leaf false under an even number of negations
and none true under an odd number. If there are no negations it is enough that every leaf keeps its
value, is left unresolved, or is turned on. -/
theorem evaluate_polarity {s t : Tree (Leaf σ)} {truth : Leaf σ → Bool}
    (hsame : s.map Leaf.atom = t.map Leaf.atom)
    (hs : ∀ leaf ∈ s.leaves, leaf.Constant (truth leaf))
    (ht : ∀ leaf ∈ t.leaves, leaf.Constant (truth leaf))
    (hxor : Operator.binary .xor ∉ s.operators) :
    ((∀ p a b, s.at? p = some (.leaf a) → t.at? p = some (.leaf b) →
        (Even (p.count .operand) → truth a = true → truth b = true) ∧
          (Odd (p.count .operand) → truth b = true → truth a = true)) →
      ∀ run later, (s.evaluate Leaf.ask run).1 = true → (t.evaluate Leaf.ask later).1 = true) ∧
    (Operator.not ∉ s.operators →
      (∀ p a b, s.at? p = some (.leaf a) → t.at? p = some (.leaf b) →
        truth b = truth a ∨ b.resolved = false ∨ truth b = true) →
      ∀ run later, (s.evaluate Leaf.ask run).1 = true → (t.evaluate Leaf.ask later).1 = true) := by
  have hrises : (∀ p a b, s.at? p = some (.leaf a) → t.at? p = some (.leaf b) →
        Rises (0 + p.count .operand) (truth a) (truth b)) →
      ∀ run later, (s.evaluate Leaf.ask run).1 = true → (t.evaluate Leaf.ask later).1 = true := by
    intro h run later hvalue
    rw [evaluate_of_constant hs] at hvalue
    rw [evaluate_of_constant ht]
    exact rises_value hsame hxor h hvalue
  constructor
  · intro h
    refine hrises fun p a b ha hb => ?_
    rw [Nat.zero_add, rises_iff]
    exact h p a b ha hb
  · intro hnot h
    refine hrises fun p a b ha hb => ?_
    rw [count_operand_of_at? hnot ha]
    intro htrue
    rcases h p a b ha hb with hkept | hresolved | hturned
    · exact hkept.trans htrue
    · have hmem : b ∈ t.leaves := by
        rw [← map_snd_leavesByPath]
        exact List.mem_map.mpr ⟨_, mem_leavesByPath_iff.mpr hb, rfl⟩
      exact (ht b hmem).eq_true_of_resolved hresolved
    · exact hturned

/-- A leaf with a fixed answer, or without one. -/
def fixed (name : String) (answer? : Option Bool) : Tree (Leaf Unit) :=
  .leaf ⟨⟨name, []⟩, answer?.map fun answer state => (answer, state)⟩

/-- An expression with leaves under no negation, under one and under two. -/
def negatedRule (a b c d : Option Bool) : Tree (Leaf Unit) :=
  .join .or (.join .and (fixed "a" a) (.not (.join .and (fixed "b" b) (fixed "c" c))))
    (.not (.not (fixed "d" d)))

/-- An expression without negations. -/
def plainRule (a b c : Option Bool) : Tree (Leaf Unit) :=
  .join .and (fixed "a" a) (.join .or (fixed "b" b) (fixed "c" c))

/-- Where there is only one state every leaf is constant. -/
theorem constant_unit (leaf : Leaf Unit) : leaf.Constant (leaf.ask ⟨(), []⟩).1 := by
  obtain ⟨atom, _ | callback⟩ := leaf
  · exact .unresolved
  · exact .resolved fun _ => rfl

/-- The second binding turns leaves on and off and leaves others unresolved. -/
theorem evaluate_polarity_of_rules :
    (((negatedRule (some true) (some true) (some false) (some false)).evaluate Leaf.ask
        ⟨(), []⟩).1 = true ∧
      ((negatedRule none (some false) (some false) (some true)).evaluate Leaf.ask
        ⟨(), []⟩).1 = true) ∧
    ((plainRule (some true) (some true) (some false)).evaluate Leaf.ask ⟨(), []⟩).1 = true ∧
      ((plainRule (some true) none (some true)).evaluate Leaf.ask ⟨(), []⟩).1 = true := by
  have hsame : (negatedRule (some true) (some true) (some false) (some false)).map Leaf.atom =
      (negatedRule none (some false) (some false) (some true)).map Leaf.atom := rfl
  have hplain : (plainRule (some true) (some true) (some false)).map Leaf.atom =
      (plainRule (some true) none (some true)).map Leaf.atom := rfl
  refine ⟨⟨rfl, ?_⟩, rfl, ?_⟩
  · refine (evaluate_polarity hsame (fun leaf _ => constant_unit leaf)
      (fun leaf _ => constant_unit leaf) (by decide)).1 ?_ ⟨(), []⟩ _ rfl
    intro p a b ha hb
    have hmem := mem_leavesByPath_iff.mpr ha
    simp only [negatedRule, fixed, leavesByPath, under, List.map_cons, List.map_nil,
      List.cons_append, List.nil_append, List.mem_cons, Prod.mk.injEq, List.not_mem_nil,
      or_false] at hmem
    rcases hmem with ⟨rfl, rfl⟩ | ⟨rfl, rfl⟩ | ⟨rfl, rfl⟩ | ⟨rfl, rfl⟩ <;> cases hb <;> decide
  · refine (evaluate_polarity hplain (fun leaf _ => constant_unit leaf)
      (fun leaf _ => constant_unit leaf) (by decide)).2 (by decide) ?_ ⟨(), []⟩ _ rfl
    intro p a b ha hb
    have hmem := mem_leavesByPath_iff.mpr ha
    simp only [plainRule, fixed, leavesByPath, under, List.map_cons, List.map_nil,
      List.cons_append, List.nil_append, List.mem_cons, Prod.mk.injEq, List.not_mem_nil,
      or_false] at hmem
    rcases hmem with ⟨rfl, rfl⟩ | ⟨rfl, rfl⟩ | ⟨rfl, rfl⟩ <;> cases hb <;> decide

end Tree

end PredicateExpr
