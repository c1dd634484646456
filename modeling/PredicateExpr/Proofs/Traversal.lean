import Mathlib.Tactic.Common
import PredicateExpr.Proofs.Evaluation
import PredicateExpr.Tree.Render

/-!
# Visiting the leaves

A traversal visits the leaves from left to right, each of them once, and keeps the tree around them:
its effects are those of a loop over the list of leaves (`Tree.leaves_traverse`), and what every
visit keeps of its leaf, the traversal keeps of the tree (`Tree.map_traverse`). Since a tree is
determined by its shape and its leaves (`Tree.eq_of_map_eq`), these two say all there is to say.
What a resolver is asked by such a traversal, and what becomes of its answers, is
`Tree.resolve_visits`.

An evaluation visits some of the leaves, in the same order (`Tree.evaluate_ask`).
-/

namespace PredicateExpr

namespace Tree

variable {m : Type → Type} {σ α β γ : Type}

/-- Visiting the leaves of a tree is visiting a list. -/
theorem leaves_traverse [Monad m] [LawfulMonad m] (f : α → m β) (t : Tree α) :
    leaves <$> t.traverse f = t.leaves.mapM f := by
  induction t with
  | empty => simp [traverse, leaves]
  | leaf a => simp [traverse, leaves]
  | not t ih => simp [traverse, leaves, ← ih]
  | join c l r ihl ihr => simp [traverse, leaves, ← ihl, ← ihr]

/-- A part of the leaves that no visit changes is where it was after a traversal. -/
theorem map_traverse {f : α → StateM σ β} {g : β → γ} {h : α → γ}
    (hf : ∀ a s, g (f a s).1 = h a) (t : Tree α) (s : σ) :
    (t.traverse f s).1.map g = t.map h := by
  induction t generalizing s with
  | empty => rfl
  | leaf a => exact congrArg leaf (hf a s)
  | not t ih => exact congrArg not (ih s)
  | join c l r ihl ihr => exact congrArg₂ (join c) (ihl s) (ihr (l.traverse f s).2)

/-- Trees of one shape with the same leaves from left to right are the same. -/
theorem eq_of_map_eq {f : α → β} {s t : Tree α} (hmap : s.map f = t.map f)
    (hleaves : s.leaves = t.leaves) : s = t := by
  induction s generalizing t with
  | empty => exact (map_eq_empty_iff.mp hmap.symm).symm
  | leaf a =>
    obtain ⟨b, rfl, -⟩ := map_eq_leaf_iff.mp hmap.symm
    rw [List.singleton_inj.mp hleaves]
  | not s ih =>
    obtain ⟨t, rfl, hoperand⟩ := map_eq_not_iff.mp hmap.symm
    rw [ih hoperand.symm hleaves]
  | join c l r ihl ihr =>
    obtain ⟨l', r', rfl, hl, hr⟩ := map_eq_join_iff.mp hmap.symm
    have hlength : l.leaves.length = l'.leaves.length := by
      simpa using congrArg (fun t => t.leaves.length) hl.symm
    obtain ⟨hleft, hright⟩ := List.append_inj hleaves hlength
    rw [ihl hl.symm hleft, ihr hr.symm hright]

end Tree

variable {m : Type → Type} {σ : Type}

/-! ## Resolving -/

/-- A loop that joins each entry with what a computation returns for it. -/
theorem mapM_eq_zipWith {α β γ : Type} [Monad m] [LawfulMonad m] (f : α → β → γ) (ask : α → m β)
    (as : List α) :
    (as.mapM fun a => do return f a (← ask a)) = List.zipWith f as <$> as.mapM ask := by
  induction as with
  | nil => simp
  | cons a as ih =>
    rw [List.mapM_cons, List.mapM_cons, ih]
    simp only [map_eq_pure_bind, bind_assoc, pure_bind, List.zipWith_cons_cons]

namespace Tree

/-- The operand of a negation is resolved. -/
theorem resolve_not [Monad m] (resolver : Resolver m σ) (t : Tree (Leaf σ)) :
    (not t).resolve resolver = do return .not (← t.resolve resolver) :=
  rfl

/-- The left operand is resolved before the right one. -/
theorem resolve_join [Monad m] (resolver : Resolver m σ) (c : Connective) (l r : Tree (Leaf σ)) :
    (join c l r).resolve resolver = do
      let l ← l.resolve resolver
      let r ← r.resolve resolver
      return .join c l r :=
  rfl

/-- Resolving puts the leaves to the resolver from left to right, and hands its answers out in the
same order. -/
theorem leaves_resolve [Monad m] [LawfulMonad m] (resolver : Resolver m σ) (t : Tree (Leaf σ)) :
    leaves <$> t.resolve resolver =
      List.zipWith Leaf.mk (t.leaves.map Leaf.atom) <$>
        (t.leaves.map Leaf.atom).mapM resolver := by
  have hanswers := mapM_eq_zipWith Leaf.mk resolver (t.leaves.map Leaf.atom)
  rw [List.mapM_map] at hanswers
  rw [resolve, leaves_traverse]
  exact hanswers

/-- Resolving keeps the expression. -/
theorem map_atom_resolve {τ : Type} (resolver : Resolver (StateM τ) σ) (t : Tree (Leaf σ))
    (state : τ) : (t.resolve resolver state).1.map Leaf.atom = t.map Leaf.atom :=
  map_traverse (h := Leaf.atom) (fun _ _ => rfl) t state

/-- To note the exchanges of a resolver changes none of its answers. They are about the leaves of
the tree from left to right, and the leaves have the answers in the same order. -/
theorem exists_resolve_noting {τ : Type} (resolver : Resolver (StateM τ) σ) (t : Tree (Leaf σ))
    (state : τ) (noted : List (Exchange σ)) :
    ∃ exchanges : List (Exchange σ),
      t.resolve resolver.noting (state, noted) =
        ((t.resolve resolver state).1, (t.resolve resolver state).2, noted ++ exchanges) ∧
      exchanges.map Exchange.atom = t.leaves.map Leaf.atom ∧
      (t.resolve resolver state).1.leaves.map Leaf.callback? =
        exchanges.map Exchange.callback? := by
  induction t generalizing state noted with
  | empty => exact ⟨[], by rw [List.append_nil]; rfl, rfl, rfl⟩
  | leaf leaf => exact ⟨[⟨leaf.atom, (resolver leaf.atom state).1⟩], rfl, rfl, rfl⟩
  | not t ih =>
    obtain ⟨exchanges, hrun, hasked, hanswers⟩ := ih state noted
    have hnot : ∀ {τ : Type} (resolver : Resolver (StateM τ) σ) (state : τ),
        (not t).resolve resolver state =
          (.not (t.resolve resolver state).1, (t.resolve resolver state).2) := fun _ _ => rfl
    refine ⟨exchanges, ?_, hasked, hanswers⟩
    rw [hnot, hrun, hnot]
  | join c l r ihl ihr =>
    obtain ⟨first, hl, haskedl, hanswersl⟩ := ihl state noted
    obtain ⟨second, hr, haskedr, hanswersr⟩ :=
      ihr (l.resolve resolver state).2 (noted ++ first)
    have hjoin : ∀ {τ : Type} (resolver : Resolver (StateM τ) σ) (state : τ),
        (join c l r).resolve resolver state =
          (.join c (l.resolve resolver state).1 (r.resolve resolver (l.resolve resolver state).2).1,
            (r.resolve resolver (l.resolve resolver state).2).2) := fun _ _ => rfl
    refine ⟨first ++ second, ?_, ?_, ?_⟩
    · rw [hjoin, hl, hr, hjoin, List.append_assoc]
    · rw [leaves, List.map_append, List.map_append, haskedl, haskedr]
    · rw [hjoin, leaves, List.map_append, List.map_append, hanswersl, hanswersr]

/-- A resolver is asked about every leaf once, from left to right, whatever its answers depend on:
the atoms of its exchanges are those of the leaves. Afterwards each leaf has the answer that was
given for it, a callback or none, and nothing else has changed: the expression is the same, and so
is its rendering. -/
theorem resolve_visits {τ : Type} (resolver : Resolver (StateM τ) σ) (t : Tree (Leaf σ))
    (state : τ) :
    ∃ exchanges : List (Exchange σ),
      t.resolve resolver.noting (state, []) =
        ((t.resolve resolver state).1, (t.resolve resolver state).2, exchanges) ∧
      exchanges.length = t.leaves.length ∧
      exchanges.map Exchange.atom = t.leaves.map Leaf.atom ∧
      (t.resolve resolver state).1.leaves.map Leaf.callback? =
        exchanges.map Exchange.callback? ∧
      (t.resolve resolver state).1.map Leaf.atom = t.map Leaf.atom ∧
      ((t.resolve resolver state).1.renderWith fun leaf => leaf.atom.render) =
        t.renderWith fun leaf => leaf.atom.render := by
  obtain ⟨exchanges, hrun, hasked, hanswers⟩ := exists_resolve_noting resolver t state []
  have hexpression := map_atom_resolve resolver t state
  have hrender : ∀ t : Tree (Leaf σ),
      (t.renderWith fun leaf => leaf.atom.render) = (t.map Leaf.atom).render :=
    fun t => (renderWith_map Atom.render Leaf.atom t).symm
  refine ⟨exchanges, hrun, ?_, hasked, hanswers, hexpression, ?_⟩
  · simpa using congrArg List.length hasked
  · rw [hrender, hrender, hexpression]

/-! ## Evaluating -/

/-- An evaluation does to the state and to the record of calls what the callbacks of some resolved
leaves do, from left to right, each of them called once. -/
theorem evaluate_ask (t : Tree (Leaf σ)) (run : Run σ) :
    ∃ called : List (Leaf σ), called.Sublist (t.leaves.filter Leaf.resolved) ∧
      (t.evaluate Leaf.ask run).2 = called.foldl (fun run leaf => (leaf.ask run).2) run := by
  induction t generalizing run with
  | empty => exact ⟨[], List.nil_sublist _, rfl⟩
  | leaf leaf =>
    cases hcallback : leaf.callback? with
    | none =>
      refine ⟨[], List.nil_sublist _, ?_⟩
      rw [evaluate, Leaf.ask, hcallback]
      rfl
    | some callback =>
      have hresolved : leaf.resolved = true := by rw [Leaf.resolved, hcallback]; rfl
      refine ⟨[leaf], ?_, rfl⟩
      rw [leaves, List.filter_cons_of_pos hresolved]
      exact List.Sublist.refl _
  | not t ih => exact ih run
  | join c l r ihl ihr =>
    obtain ⟨first, hfirst, hl⟩ := ihl run
    rw [evaluate, Connective.combineM_run, leaves, List.filter_append]
    -- no leaf of the right operand is called where the left one settles the value
    cases c.settled? (l.evaluate Leaf.ask run).1 with
    | some value => exact ⟨first, hfirst.trans (List.sublist_append_left _ _), hl⟩
    | none =>
      obtain ⟨second, hsecond, hr⟩ := ihr (l.evaluate Leaf.ask run).2
      refine ⟨first ++ second, hfirst.append hsecond, ?_⟩
      rw [List.foldl_append, ← hl]
      exact hr

end Tree

end PredicateExpr
