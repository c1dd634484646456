import Mathlib.Tactic.Common
import PredicateExpr.Tree.Basic

/-!
# Paths in an expression

An expression has many operands, and some of them may be equal. To tell them apart we lead a path
from the root to each: which operand to turn to, operation by operation. `Tree.at?` follows a path,
and `Tree.leavesByPath` lists the leaves together with the paths that lead to them. The list is in
the order of `Tree.leaves`, and it has every leaf once.
-/

namespace PredicateExpr.Tree

variable {α β : Type}

/-- A step from an operation to one of its operands. -/
inductive Turn
  /-- To what is negated. -/
  | operand
  /-- To the left operand of a connective. -/
  | left
  /-- To its right operand. -/
  | right
  deriving DecidableEq, Repr

/-- The steps from the root of an expression to one of its operands. -/
abbrev Path := List Turn

/-- The operand to which a path leads, if the expression has all the operands on the way. -/
def at? : Tree α → Path → Option (Tree α)
  | t, [] => some t
  | .not t, .operand :: p => t.at? p
  | .join _ l _, .left :: p => l.at? p
  | .join _ _ r, .right :: p => r.at? p
  | _, _ :: _ => none

/-- Something given at every path of an expression, as it is given at the paths of an operand. -/
def within (p : Path) (values : Path → β) : Path → β :=
  fun q => values (p ++ q)

/-- Something that stands at a path in an operand, at its path in the whole expression. -/
def under (p : Path) (x : Path × α) : Path × α :=
  (p ++ x.1, x.2)

/-- The leaves from left to right, each with the path that leads to it. -/
def leavesByPath : Tree α → List (Path × α)
  | .empty => []
  | .leaf a => [([], a)]
  | .not t => t.leavesByPath.map (under [.operand])
  | .join _ l r => l.leavesByPath.map (under [.left]) ++ r.leavesByPath.map (under [.right])

@[simp] theorem at?_nil (t : Tree α) : t.at? [] = some t := by
  cases t <;> rfl

@[simp] theorem at?_empty_cons (turn : Turn) (p : Path) :
    (empty : Tree α).at? (turn :: p) = none := by
  cases turn <;> rfl

@[simp] theorem at?_leaf_cons (a : α) (turn : Turn) (p : Path) :
    (leaf a).at? (turn :: p) = none := by
  cases turn <;> rfl

/-- An expression is the operand at the empty path. -/
@[simp] theorem within_nil (values : Path → β) : within [] values = values :=
  rfl

/-- What is given in an operand of an operand is found along both paths. -/
@[simp] theorem within_within (p q : Path) (values : Path → β) :
    within q (within p values) = within (p ++ q) values := by
  funext r
  exact congrArg values (List.append_assoc p q r).symm

/-- What stands in an expression is at its own path there. -/
@[simp] theorem under_nil : (under [] : Path × α → Path × α) = id :=
  rfl

/-- What stands in an operand of an operand is at the end of both paths. -/
@[simp] theorem under_comp_under (p q : Path) :
    (under p : Path × α → Path × α) ∘ under q = under (p ++ q) := by
  funext x
  exact congrArg (·, x.2) (List.append_assoc p q x.1).symm

/-- The list of leaves with their paths is in the order of the leaves. -/
theorem map_snd_leavesByPath (t : Tree α) : t.leavesByPath.map Prod.snd = t.leaves := by
  have hunder : ∀ p, (Prod.snd : Path × α → α) ∘ under p = Prod.snd := fun _ => rfl
  induction t with
  | empty => rfl
  | leaf a => rfl
  | not t ih => rw [leavesByPath, List.map_map, hunder, ih, leaves]
  | join c l r ihl ihr =>
    rw [leavesByPath, List.map_append, List.map_map, List.map_map, hunder, hunder, ihl, ihr, leaves]

/-- Every leaf is listed at its own path. -/
theorem mem_leavesByPath_iff {t : Tree α} {p : Path} {a : α} :
    (p, a) ∈ t.leavesByPath ↔ t.at? p = some (.leaf a) := by
  induction t generalizing p with
  | empty =>
    cases p with
    | nil => simp [leavesByPath]
    | cons turn p => simp [leavesByPath]
  | leaf b =>
    cases p with
    | nil => simp [leavesByPath, eq_comm]
    | cons turn p => simp [leavesByPath]
  | not t ih =>
    rcases p with _ | ⟨_ | _ | _, p⟩ <;> simp [leavesByPath, at?, under, ih]
  | join c l r ihl ihr =>
    rcases p with _ | ⟨_ | _ | _, p⟩ <;> simp [leavesByPath, at?, under, ihl, ihr]

/-- No two leaves have the same path. -/
theorem nodup_leavesByPath (t : Tree α) : (t.leavesByPath.map Prod.fst).Nodup := by
  have hunder : ∀ turn : Turn,
      (Prod.fst : Path × α → Path) ∘ under [turn] = List.cons turn ∘ Prod.fst := fun _ => rfl
  have hturn : ∀ turn : Turn, ∀ a b : Path, a ≠ b → turn :: a ≠ turn :: b :=
    fun _ _ _ hne heq => hne (List.cons.inj heq).2
  induction t with
  | empty => exact List.nodup_nil
  | leaf a => exact List.pairwise_singleton _ _
  | not t ih =>
    rw [leavesByPath, List.map_map, hunder, ← List.map_map]
    exact List.Pairwise.map _ (hturn .operand) ih
  | join c l r ihl ihr =>
    rw [leavesByPath, List.map_append, List.map_map, List.map_map, hunder, hunder, ← List.map_map,
      ← List.map_map, List.nodup_append]
    refine ⟨List.Pairwise.map _ (hturn .left) ihl, List.Pairwise.map _ (hturn .right) ihr, ?_⟩
    -- the paths to the leaves of the two operands differ in their first turn
    intro p hp q hq heq
    obtain ⟨p', -, rfl⟩ := List.mem_map.mp hp
    obtain ⟨q', -, rfl⟩ := List.mem_map.mp hq
    cases heq

end PredicateExpr.Tree
