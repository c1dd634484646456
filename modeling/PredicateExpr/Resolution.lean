import PredicateExpr.Atom
import PredicateExpr.Tree.Basic

/-!
# Resolving the predicates of an expression

A predicate gets its meaning from outside: a resolver maps an atom to a callback, or to nothing.
Callbacks answer with a truth value and may read and change a state `σ` that all of them share. A
resolver may have effects of its own, and is asked once for every leaf, from left to right; the
answer replaces whatever callback the leaf had.
-/

namespace PredicateExpr

/-- A predicate that was given a meaning: its answer may depend on the state and change it. -/
abbrev Callback (σ : Type) := StateM σ Bool

/-- A leaf of an expression whose predicates can be resolved. -/
structure Leaf (σ : Type) where
  /-- What the leaf says. -/
  atom : Atom
  /-- Its callback, once the leaf is resolved. -/
  callback? : Option (Callback σ)

/-- Whether a leaf has a callback. -/
def Leaf.resolved {σ : Type} (leaf : Leaf σ) : Bool :=
  leaf.callback?.isSome

/-- A leaf that is not resolved. -/
def Leaf.unresolved {σ : Type} (atom : Atom) : Leaf σ :=
  ⟨atom, none⟩

/-- A source of callbacks, whose answers are computed in a monad `m`. -/
abbrev Resolver (m : Type → Type) (σ : Type) := Atom → m (Option (Callback σ))

namespace Resolver

variable {m : Type → Type} {σ : Type}

/-- The resolver that knows no predicate. -/
def unknown [Monad m] : Resolver m σ :=
  fun _ => pure none

/-- A resolver whose answers are known in advance. -/
def ofFunction [Monad m] (answer : Atom → Option (Callback σ)) : Resolver m σ :=
  fun atom => pure (answer atom)

end Resolver

/-- An expression with every leaf resolved anew, from left to right. -/
def Tree.resolve {m : Type → Type} {σ : Type} [Monad m] (resolver : Resolver m σ) :
    Tree (Leaf σ) → m (Tree (Leaf σ)) :=
  traverse fun leaf => do return { leaf with callback? := ← resolver leaf.atom }

/-! ## Keeping record of what a resolver was asked -/

/-- A question to a resolver. -/
structure Request where
  /-- The atom asked about. -/
  atom : Atom
  /-- Whether a callback was returned. -/
  answered : Bool
  deriving DecidableEq, Repr

/-- A resolver that notes every question, in order. -/
def Resolver.recording {σ : Type} (answer : Atom → Option (Callback σ)) :
    Resolver (StateM (List Request)) σ :=
  fun atom => do
    let callback? := answer atom
    modify (· ++ [⟨atom, callback?.isSome⟩])
    return callback?

/-- A question to a resolver, with what it returned. -/
structure Exchange (σ : Type) where
  /-- The atom asked about. -/
  atom : Atom
  /-- The callback returned, if any. -/
  callback? : Option (Callback σ)

/-- A resolver whose answers depend on a state of its own, and which notes every exchange in
order. -/
def Resolver.noting {σ τ : Type} (resolver : Resolver (StateM τ) σ) :
    Resolver (StateM (τ × List (Exchange σ))) σ :=
  fun atom => do
    let (state, noted) ← get
    let (callback?, state) := (resolver atom).run state
    set (state, noted ++ [⟨atom, callback?⟩])
    return callback?

end PredicateExpr
