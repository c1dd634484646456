import PredicateExpr.Proofs.Evaluation
import PredicateExpr.Proofs.Phrase.Chains
import PredicateExpr.Tree.Regrouping

/-!
# The grouping of chains

A phrase does not say how the operands of a chain are to be grouped, and a pass groups them to the
right. Evaluation cannot tell that from any other grouping (`Tree.evaluate_brackets`): one after the
other the operands are evaluated until the value is settled, and nothing but the row of operands has
a part in that (`Tree.Brackets.evaluate_eq`).
-/

namespace PredicateExpr

variable {m : Type → Type} {σ α : Type}

/-! ## A connective as an operation on computations -/

/-- The value that a connective passes over. -/
def Connective.neutral : Connective → Bool
  | .and => true
  | .xor => false
  | .or => false

namespace Connective

variable [Monad m] [LawfulMonad m]

/-- A connective passes over a neutral value on its right. -/
theorem combineM_neutral (c : Connective) (x : m Bool) : c.combineM x (pure c.neutral) = x := by
  have hif : ∀ a : Bool, (if a then pure true else pure false : m Bool) = pure a := by
    intro a
    cases a <;> rfl
  cases c with
  | and => simp only [combineM, neutral, hif, bind_pure]
  | xor => simp only [combineM, neutral, pure_bind, Bool.xor_false, bind_pure]
  | or => simp only [combineM, neutral, hif, bind_pure]

/-- A connective passes over a neutral value on its left. -/
theorem neutral_combineM (c : Connective) (x : m Bool) : c.combineM (pure c.neutral) x = x := by
  cases c with
  | and => simp only [combineM, neutral, pure_bind, if_true]
  | xor => simp only [combineM, neutral, pure_bind, Bool.false_xor, bind_pure]
  | or => simp only [combineM, neutral, pure_bind, Bool.false_eq_true, if_false]

/-- A row of computations, joined from the first to the last. -/
def joinRow (c : Connective) (row : List (m Bool)) : m Bool :=
  row.foldr c.combineM (pure c.neutral)

/-- A row of one computation is this computation. -/
theorem joinRow_singleton (c : Connective) (x : m Bool) : c.joinRow [x] = x :=
  c.combineM_neutral x

/-- Two rows joined one after the other are one row. -/
theorem joinRow_append (c : Connective) (xs ys : List (m Bool)) :
    c.joinRow (xs ++ ys) = c.combineM (c.joinRow xs) (c.joinRow ys) := by
  induction xs with
  | nil => exact (c.neutral_combineM _).symm
  | cons x xs ih =>
    calc c.joinRow (x :: (xs ++ ys)) = c.combineM x (c.joinRow (xs ++ ys)) := rfl
      _ = c.combineM x (c.combineM (c.joinRow xs) (c.joinRow ys)) := by rw [ih]
      _ = c.combineM (c.combineM x (c.joinRow xs)) (c.joinRow ys) :=
        (c.combineM_assoc _ _ _).symm

end Connective

namespace Tree

/-! ## Bracketings -/

/-- An expression that brackets a row of operands evaluates them in a row. -/
theorem Brackets.evaluate_eq [Monad m] [LawfulMonad m] {c : Connective} {operands : List (Tree α)}
    {t : Tree α} (h : Brackets (.binary c) operands t) (ask : α → m Bool) :
    t.evaluate ask = c.joinRow (operands.map (evaluate ask)) := by
  induction h with
  | single t => exact (c.joinRow_singleton _).symm
  | join _ _ hjoin ihl ihr =>
    cases hjoin
    rw [List.map_append, Connective.joinRow_append, evaluate, ihl, ihr]

end Tree

/-! ## The chains of a phrase -/

namespace Phrase

/-- The expressions that stand in a phrase. -/
def operands (phrase : Phrase) : List (Tree Atom) :=
  phrase.filterMap fun
    | .operand o => some o.tree
    | .operator _ _ => none

/-- A chain brackets the operands that it is made of. -/
theorem Chain.brackets {c : Connective} {p : Phrase} {t : Tree Atom} (h : Chain c Single p t) :
    Tree.Brackets (.binary c) p.operands t := by
  induction h with
  | one h =>
    obtain ⟨o⟩ := h
    exact .single o.tree
  | join offset hl _ ih =>
    obtain ⟨o⟩ := hl
    exact .join (.single o.tree) ih rfl

/-- A pass that leaves one operand brackets the operands that there were. -/
theorem brackets_of_pass {c : Connective} {p : Phrase} {o : Operand}
    (h : p.pass (.binary c) = .ok [.operand o]) :
    Tree.Brackets (.binary c) p.operands o.tree := by
  have hpasses : List.foldlM pass p [.binary c] = .ok [.operand o] := by
    rw [List.foldlM_cons, h]
    rfl
  cases absorbsAll_of_foldlM_pass hpasses with
  | cons habsorbs hnil =>
    cases hnil
    exact (chain_of_absorbs habsorbs rfl).brackets

end Phrase

namespace Tree

/-- All expressions that bracket one row of operands under a connective evaluate alike, in every
state and with the same calls, whatever the callbacks do to the state. So the grouping that a pass
gives to a chain is as good as any other. -/
theorem evaluate_brackets (c : Connective) :
    (∀ (operands : List (Tree (Leaf σ))) s t, Brackets (.binary c) operands s →
      Brackets (.binary c) operands t →
      ∀ run, s.evaluate Leaf.ask run = t.evaluate Leaf.ask run) ∧
    ∀ (phrase : Phrase) o, phrase.pass (.binary c) = .ok [.operand o] →
      ∀ t, Brackets (.binary c) phrase.operands t →
      ∀ (answer : Atom → Option (Callback σ)) state,
        (Condition.resolved answer o.tree).run state = (Condition.resolved answer t).run state := by
  constructor
  · intro operands s t hs ht run
    rw [hs.evaluate_eq, ht.evaluate_eq]
  · intro phrase o hpass t ht answer state
    have ho := Phrase.brackets_of_pass hpass
    rw [Condition.run, Condition.run, Condition.evaluate_resolved, Condition.evaluate_resolved,
      ho.evaluate_eq, ht.evaluate_eq]

/-- A leaf whose callback tells the state and inverts it. -/
def flipping (name : String) : Tree (Leaf Bool) :=
  .leaf ⟨⟨name, []⟩, some fun flag => (flag, !flag)⟩

/-- Three alternatives of which the second one settles the value, once grouped to the left and once
to the right, as a pass does it. -/
theorem evaluate_brackets_of_alternatives :
    (join .or (.join .or (flipping "a") (flipping "b")) (flipping "c")).evaluate Leaf.ask
        ⟨false, []⟩ =
      (join .or (flipping "a") (.join .or (flipping "b") (flipping "c"))).evaluate Leaf.ask
        ⟨false, []⟩ ∧
    (join .or (flipping "a") (.join .or (flipping "b") (flipping "c"))).evaluate Leaf.ask
        ⟨false, []⟩ = (true, ⟨false, [⟨"a", []⟩, ⟨"b", []⟩]⟩) ∧
    Phrase.pass [.operand (.ofAtom ⟨"a", []⟩ 0), .operator (.binary .or) 1,
        .operand (.ofAtom ⟨"b", []⟩ 2), .operator (.binary .or) 3,
        .operand (.ofAtom ⟨"c", []⟩ 4)] (.binary .or) =
      .ok [.operand ⟨⟨.join .or (.leaf ⟨"a", []⟩) (.join .or (.leaf ⟨"b", []⟩) (.leaf ⟨"c", []⟩)),
        3⟩, 0⟩] ∧
    ∀ (answer : Atom → Option (Callback Bool)) state,
      (Condition.resolved answer
        (.join .or (.leaf ⟨"a", []⟩) (.join .or (.leaf ⟨"b", []⟩) (.leaf ⟨"c", []⟩)))).run state =
      (Condition.resolved answer
        (.join .or (.join .or (.leaf ⟨"a", []⟩) (.leaf ⟨"b", []⟩)) (.leaf ⟨"c", []⟩))).run
          state := by
  have hleft : ∀ {α : Type} (s t u : Tree α),
      Brackets (.binary .or) [s, t, u] (.join .or (.join .or s t) u) :=
    fun s t u => .join (.join (.single s) (.single t) rfl) (.single u) rfl
  have hright : ∀ {α : Type} (s t u : Tree α),
      Brackets (.binary .or) [s, t, u] (.join .or s (.join .or t u)) :=
    fun s t u => .join (.single s) (.join (.single t) (.single u) rfl) rfl
  have hpass : Phrase.pass [.operand (.ofAtom ⟨"a", []⟩ 0), .operator (.binary .or) 1,
        .operand (.ofAtom ⟨"b", []⟩ 2), .operator (.binary .or) 3,
        .operand (.ofAtom ⟨"c", []⟩ 4)] (.binary .or) =
      .ok [.operand ⟨⟨.join .or (.leaf ⟨"a", []⟩) (.join .or (.leaf ⟨"b", []⟩) (.leaf ⟨"c", []⟩)),
        3⟩, 0⟩] := rfl
  refine ⟨?_, rfl, hpass, fun answer state => ?_⟩
  · exact (evaluate_brackets .or).1 _ _ _ (hleft _ _ _) (hright _ _ _) _
  · exact (evaluate_brackets .or).2 _ _ hpass _ (hleft _ _ _) answer state

end Tree

end PredicateExpr
