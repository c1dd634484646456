import Mathlib.Tactic.Common
import PredicateExpr.Grammar

/-!
# Groups around tokens

How many groups are open at a place is told by the brackets before it. `Grammar.groupsAfter` counts
them, `Grammar.tooDeep?` finds the first opening bracket with too many groups around it, and
`Grammar.outside` lists the tokens with none around them. All three go along tokens from left to
right, so that each has a rule for tokens put one after the other; the tokens of a derivation leave
the count where it was (`Derives.groupsAfter_eq`).
-/

namespace PredicateExpr.Grammar

/-! ## Counting groups -/

/-- The number of open groups behind a token. -/
def groupsBehind (groups : Nat) (token : Token) : Nat :=
  match token.kind with
  | .opener => groups + 1
  | .closer => groups - 1
  | _ => groups

/-- The number of open groups behind several tokens. -/
def groupsAfter (groups : Nat) (tokens : List Token) : Nat :=
  tokens.foldl groupsBehind groups

/-- The first opening bracket with `maxDepth` or more groups open around it, where `groups` are
open at the beginning. -/
def tooDeep? : (groups : Nat) → List Token → Option Token
  | _, [] => none
  | groups, token :: tokens =>
    if token.kind = .opener ∧ maxDepth ≤ groups then
      some token
    else
      tooDeep? (groupsBehind groups token) tokens

/-- The tokens with no group open around them, where `groups` are open at the beginning. -/
def outside : (groups : Nat) → List Token → List Token
  | _, [] => []
  | groups, token :: tokens =>
    if groups = 0 then
      token :: outside (groupsBehind groups token) tokens
    else
      outside (groupsBehind groups token) tokens

@[simp] theorem groupsAfter_nil (groups : Nat) : groupsAfter groups [] = groups := rfl

@[simp] theorem groupsAfter_cons (groups : Nat) (token : Token) (tokens : List Token) :
    groupsAfter groups (token :: tokens) = groupsAfter (groupsBehind groups token) tokens := rfl

/-- Groups are counted on through a second row of tokens. -/
@[simp] theorem groupsAfter_append (groups : Nat) (ts us : List Token) :
    groupsAfter groups (ts ++ us) = groupsAfter (groupsAfter groups ts) us :=
  List.foldl_append

theorem groupsBehind_of_opener {token : Token} (h : token.kind = .opener) (groups : Nat) :
    groupsBehind groups token = groups + 1 := by
  rw [groupsBehind, h]

theorem groupsBehind_of_closer {token : Token} (h : token.kind = .closer) (groups : Nat) :
    groupsBehind groups token = groups - 1 := by
  rw [groupsBehind, h]

/-- Tokens that are no brackets do not count. -/
theorem groupsBehind_of_ne {token : Token} (hopener : token.kind ≠ .opener)
    (hcloser : token.kind ≠ .closer) (groups : Nat) : groupsBehind groups token = groups := by
  unfold groupsBehind
  split
  · contradiction
  · contradiction
  · rfl

/-! ## The first bracket too deep -/

/-- The first bracket too deep is one of the first tokens or else one of those behind them. -/
theorem tooDeep?_append (groups : Nat) (ts us : List Token) :
    tooDeep? groups (ts ++ us) =
      (tooDeep? groups ts).or (tooDeep? (groupsAfter groups ts) us) := by
  induction ts generalizing groups with
  | nil => rfl
  | cons token ts ih =>
    rw [List.cons_append, tooDeep?, tooDeep?, groupsAfter_cons]
    split
    · rfl
    · exact ih _

/-- A token that is no opening bracket is not too deep. -/
theorem tooDeep?_cons_of_ne {token : Token} (h : token.kind ≠ .opener) (groups : Nat)
    (tokens : List Token) :
    tooDeep? groups (token :: tokens) = tooDeep? (groupsBehind groups token) tokens := by
  rw [tooDeep?, if_neg (fun hdeep => h hdeep.1)]

/-- Separators have no part in what is too deep. -/
theorem tooDeep?_significant (groups : Nat) (tokens : List Token) :
    tooDeep? groups (significant tokens) = tooDeep? groups tokens := by
  induction tokens generalizing groups with
  | nil => rfl
  | cons token tokens ih =>
    by_cases hkind : token.kind = .separator
    · rw [significant_cons_of_separator hkind, ih, tooDeep?_cons_of_ne (by simp [hkind]),
        groupsBehind_of_ne (by simp [hkind]) (by simp [hkind])]
    · rw [significant_cons hkind, tooDeep?, tooDeep?, ih]

/-- All brackets are within the limit when none is found beyond it. -/
theorem withinGroups_eq_true_iff {groups : Nat} {tokens : List Token} :
    withinGroups groups tokens = true ↔ tooDeep? groups tokens = none := by
  induction tokens generalizing groups with
  | nil => simp [withinGroups, tooDeep?]
  | cons token tokens ih =>
    unfold withinGroups tooDeep? groupsBehind
    cases token.kind with
    | opener =>
      by_cases h : groups < maxDepth
      · simp [h, Nat.not_le.mpr h, ih]
      · simp [h, Nat.not_lt.mp h]
    | closer | separator | operator | literal | word => simp [ih]

/-! ## Tokens outside all groups -/

/-- Whether a token stands outside all groups depends on the tokens in front of it. -/
theorem outside_append (groups : Nat) (ts us : List Token) :
    outside groups (ts ++ us) = outside groups ts ++ outside (groupsAfter groups ts) us := by
  induction ts generalizing groups with
  | nil => rfl
  | cons token ts ih =>
    rw [List.cons_append, outside, outside, groupsAfter_cons]
    split
    · rw [ih, List.cons_append]
    · rw [ih]

/-- Dropping separators loses only separators. -/
theorem mem_outside_of_significant {groups : Nat} {tokens : List Token} {token : Token}
    (h : token ∈ outside groups (significant tokens)) : token ∈ outside groups tokens := by
  induction tokens generalizing groups with
  | nil => exact h
  | cons first tokens ih =>
    by_cases hkind : first.kind = .separator
    · have hbehind : groupsBehind groups first = groups :=
        groupsBehind_of_ne (by simp [hkind]) (by simp [hkind]) groups
      rw [significant_cons_of_separator hkind] at h
      have htail : token ∈ outside groups tokens := ih h
      rw [outside, hbehind]
      split
      · exact List.mem_cons_of_mem _ htail
      · exact htail
    · rw [significant_cons hkind, outside] at h
      rw [outside]
      split at h
      · rename_i hzero
        rw [if_pos hzero]
        rcases List.mem_cons.mp h with rfl | hmem
        · exact List.mem_cons_self
        · exact List.mem_cons_of_mem _ (ih hmem)
      · rename_i hpos
        rw [if_neg hpos]
        exact ih h

/-! ## Derivations are balanced -/

/-- An operator opens and closes no group. -/
theorem Spells.groupsBehind_eq {token : Token} {op : Operator} (h : Spells token op)
    (groups : Nat) : groupsBehind groups token = groups :=
  groupsBehind_of_ne (by simp [h.1]) (by simp [h.1]) groups

/-- An operator token adds no group. -/
theorem Spells.tooDeep?_cons {token : Token} {op : Operator} (h : Spells token op)
    (groups : Nat) (tokens : List Token) :
    tooDeep? groups (token :: tokens) = tooDeep? groups tokens := by
  rw [Grammar.tooDeep?_cons_of_ne (by simp [h.1]), h.groupsBehind_eq]

/-- Literals do not change the number of open groups. -/
theorem groupsAfter_literals {literals : List Token}
    (h : ∀ token ∈ literals, token.kind = .literal) (groups : Nat) :
    groupsAfter groups literals = groups := by
  induction literals with
  | nil => rfl
  | cons token literals ih =>
    rw [List.forall_mem_cons] at h
    rw [groupsAfter_cons, groupsBehind_of_ne (by simp [h.1]) (by simp [h.1])]
    exact ih h.2

/-- The tokens of a derivation close every group that they open. -/
theorem Derives.groupsAfter_eq {category : Category} {ts : List Token} {t : Tree Atom}
    (h : Derives category ts t) (groups : Nat) : groupsAfter groups ts = groups := by
  induction h generalizing groups with
  | empty => rfl
  | chain _ ih => exact ih groups
  | operand _ ih => exact ih groups
  | join _ hop _ ihl ihr =>
    rw [groupsAfter_append, ihl, groupsAfter_cons, hop.groupsBehind_eq, ihr]
  | atom _ ih => exact ih groups
  | not hop _ ih => rw [groupsAfter_cons, hop.groupsBehind_eq, ih]
  | leaf hword hliterals =>
    rw [groupsAfter_cons, groupsBehind_of_ne (by simp [hword]) (by simp [hword]),
      groupsAfter_literals hliterals]
  | group hopening hclosing _ ih =>
    simp only [groupsAfter_append, groupsAfter_cons, groupsBehind_of_opener hopening, ih,
      groupsBehind_of_closer hclosing, groupsAfter_nil, Nat.add_sub_cancel]

/-- Literals hold no bracket. -/
theorem tooDeep?_literals {literals : List Token}
    (h : ∀ token ∈ literals, token.kind = .literal) (groups : Nat) :
    tooDeep? groups literals = none := by
  induction literals with
  | nil => rfl
  | cons token literals ih =>
    rw [List.forall_mem_cons] at h
    rw [tooDeep?_cons_of_ne (by simp [h.1]), groupsBehind_of_ne (by simp [h.1]) (by simp [h.1])]
    exact ih h.2

end PredicateExpr.Grammar
