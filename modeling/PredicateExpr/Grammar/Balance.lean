import Mathlib.Data.List.Infix
import PredicateExpr.Token

/-!
# Balanced tokens

How many groups some tokens leave open is told by their brackets alone: each opening bracket opens
one, and each closing bracket closes one. `Grammar.surplus` is the difference. Tokens are balanced
when no beginning of them closes more groups than it opens and when in the end all are closed; how
deep they nest is the largest surplus that a beginning of them has.
-/

namespace PredicateExpr

/-- What a token adds to the number of open groups. -/
def Token.weight (token : Token) : Int :=
  match token.kind with
  | .opener => 1
  | .closer => -1
  | _ => 0

namespace Token

variable {token : Token}

theorem weight_of_opener (h : token.kind = .opener) : token.weight = 1 := by
  rw [weight, h]

theorem weight_of_closer (h : token.kind = .closer) : token.weight = -1 := by
  rw [weight, h]

theorem weight_of_ne (hopener : token.kind ≠ .opener) (hcloser : token.kind ≠ .closer) :
    token.weight = 0 := by
  unfold weight
  split
  · contradiction
  · contradiction
  · rfl

end Token

namespace Grammar

/-- By how many the opening brackets among some tokens outnumber the closing ones. -/
def surplus : List Token → Int
  | [] => 0
  | token :: tokens => token.weight + surplus tokens

/-- Tokens whose brackets belong together in pairs, whatever their styles. -/
structure Balanced (tokens : List Token) : Prop where
  /-- No bracket closes a group that was not opened among the tokens. -/
  nonneg : ∀ front, front <+: tokens → 0 ≤ surplus front
  /-- Every group that is opened is closed. -/
  settled : surplus tokens = 0

/-- Tokens of which no beginning opens more than `n` groups that it does not close. -/
def NestsWithin (n : Nat) (tokens : List Token) : Prop :=
  ∀ front, front <+: tokens → surplus front ≤ n

instance (tokens : List Token) : Decidable (Balanced tokens) :=
  decidable_of_iff ((∀ front ∈ tokens.inits, 0 ≤ surplus front) ∧ surplus tokens = 0) (by
    simp only [List.mem_inits]
    exact ⟨fun h => ⟨h.1, h.2⟩, fun h => ⟨h.nonneg, h.settled⟩⟩)

instance (n : Nat) (tokens : List Token) : Decidable (NestsWithin n tokens) :=
  decidable_of_iff (∀ front ∈ tokens.inits, surplus front ≤ n) (by
    simp only [List.mem_inits]
    exact Iff.rfl)

/-! ## Tokens put one after the other -/

@[simp] theorem surplus_nil : surplus [] = 0 := rfl

@[simp] theorem surplus_cons (token : Token) (tokens : List Token) :
    surplus (token :: tokens) = token.weight + surplus tokens := rfl

/-- The surplus of two rows of tokens is the sum of theirs. -/
@[simp] theorem surplus_append (ts us : List Token) :
    surplus (ts ++ us) = surplus ts + surplus us := by
  induction ts with
  | nil => rw [surplus_nil, Int.zero_add, List.nil_append]
  | cons token ts ih => rw [List.cons_append, surplus_cons, surplus_cons, ih, Int.add_assoc]

variable {opening closing : Token} {ts : List Token}

/-- A beginning of a group is a beginning of what is inside, or else the whole group. -/
theorem surplus_of_prefix_group (hopening : opening.kind = .opener)
    (hclosing : closing.kind = .closer) {front : List Token}
    (h : front <+: opening :: ts ++ [closing]) :
    front = [] ∨ (∃ inner, inner <+: ts ∧ surplus front = surplus inner + 1) ∨
      surplus front = surplus ts := by
  rw [List.cons_append, List.prefix_cons_iff] at h
  obtain rfl | ⟨inner, rfl, hinner⟩ := h
  · exact .inl rfl
  · rw [surplus_cons, Token.weight_of_opener hopening, Int.add_comm]
    rw [List.prefix_concat_iff] at hinner
    obtain rfl | hinner := hinner
    · refine .inr (.inr ?_)
      rw [surplus_append, surplus_cons, surplus_nil, Token.weight_of_closer hclosing]
      omega
    · exact .inr (.inl ⟨inner, hinner, rfl⟩)

/-- Brackets around balanced tokens belong together. -/
theorem Balanced.group (h : Balanced ts) (hopening : opening.kind = .opener)
    (hclosing : closing.kind = .closer) : Balanced (opening :: ts ++ [closing]) where
  nonneg := by
    intro front hfront
    have hsettled := h.settled
    obtain rfl | ⟨inner, hinner, heq⟩ | heq := surplus_of_prefix_group hopening hclosing hfront
    · exact Int.le_refl _
    · have hnonneg := h.nonneg inner hinner
      omega
    · omega
  settled := by
    have hsettled := h.settled
    simp [Token.weight_of_opener hopening, Token.weight_of_closer hclosing, hsettled]

/-- Brackets around balanced tokens make them nest one deeper. -/
theorem NestsWithin.group {n : Nat} (hnests : NestsWithin n ts) (h : Balanced ts)
    (hopening : opening.kind = .opener) (hclosing : closing.kind = .closer) :
    NestsWithin (n + 1) (opening :: ts ++ [closing]) := by
  intro front hfront
  have hsettled := h.settled
  obtain rfl | ⟨inner, hinner, heq⟩ | heq := surplus_of_prefix_group hopening hclosing hfront
  · exact Int.natCast_nonneg _
  · have hle := hnests inner hinner
    omega
  · omega

end Grammar

end PredicateExpr
