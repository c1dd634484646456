import Mathlib.Tactic.Common
import PredicateExpr.Grammar.Balance
import PredicateExpr.Proofs.Nesting.Reading

/-!
# Reading inside other levels

Balanced tokens touch none of the levels that are open around them. They are read there as they are
read alone (`Nesting.read_under`), as long as no bracket comes to stand inside too many groups: a
level below others is folded when its bracket is closed, just as it would be at the end of the
tokens. So a group with balanced tokens inside is one operand of its level, or else fails as these
tokens do (`Nesting.read_group`).

How many levels are open is the surplus of the tokens read so far (`Nesting.length_outer_of_read`).
-/

namespace PredicateExpr

open Grammar (Balanced NestsWithin surplus)

namespace Nesting

variable {groups : Nat} {nesting nesting' : Nesting} {token : Token} {tokens rest : List Token}

/-! ## Counting levels -/

/-- A token that is read opens and closes as many levels as its weight says. -/
theorem Advance.length_outer (h : Advance groups nesting token nesting') :
    (nesting'.outer.length : Int) = nesting.outer.length + token.weight := by
  cases h with
  | opener hkind _ =>
    simp only [Token.weight_of_opener hkind, List.length_cons]
    omega
  | closer hkind _ =>
    simp only [Token.weight_of_closer hkind, List.length_cons]
    omega
  | separator hkind | literal hkind | word hkind =>
    rw [Token.weight_of_ne (by simp [hkind]) (by simp [hkind]), Int.add_zero]
  | operator hop =>
    rw [Token.weight_of_ne (by simp [hop.1]) (by simp [hop.1]), Int.add_zero]

/-- After tokens that are all read, their surplus is open. -/
theorem length_outer_of_read (h : nesting.read groups tokens = .ok (nesting', [])) :
    (nesting'.outer.length : Int) = nesting.outer.length + surplus tokens := by
  induction tokens generalizing nesting with
  | nil =>
    cases h
    simp
  | cons token tokens ih =>
    obtain ⟨between, hnext, hbetween⟩ | ⟨_, _, hrest⟩ := next_of_read_cons h
    · have hfirst := (advance_of_next hnext).length_outer
      have hlength := ih hbetween
      rw [Grammar.surplus_cons]
      omega
    · cases hrest

/-- What is read of some tokens is read of them without the rest, too. -/
theorem exists_taken_of_read (h : nesting.read groups tokens = .ok (nesting', rest)) :
    ∃ taken, tokens = taken ++ rest ∧ nesting.read groups taken = .ok (nesting', []) := by
  induction tokens generalizing nesting with
  | nil =>
    cases h
    exact ⟨[], rfl, rfl⟩
  | cons token tokens ih =>
    obtain ⟨between, hnext, hbetween⟩ | ⟨_, rfl, rfl⟩ := next_of_read_cons h
    · obtain ⟨taken, rfl, htaken⟩ := ih hbetween
      exact ⟨token :: taken, rfl, by rw [read_cons_of_some hnext, htaken]⟩
    · exact ⟨[], rfl, rfl⟩

/-- Tokens that close no group but their own, and those of the open levels, are read to the end. -/
theorem eq_nil_of_read
    (hcloses : ∀ front, front <+: tokens → 0 ≤ (nesting.outer.length : Int) + surplus front)
    (h : nesting.read groups tokens = .ok (nesting', rest)) : rest = [] := by
  cases rest with
  | nil => rfl
  | cons stray rest =>
    -- the bracket at which reading stops would close a group that is not open
    obtain ⟨hkind, houter⟩ := stray_of_read h
    obtain ⟨taken, rfl, htaken⟩ := exists_taken_of_read h
    have hlength := length_outer_of_read htaken
    have hstray := hcloses (taken ++ [stray]) (by simp)
    simp only [houter, List.length_nil, Grammar.surplus_append, Grammar.surplus_cons,
      Grammar.surplus_nil, Token.weight_of_closer hkind] at hlength hstray
    omega

/-! ## Levels around others -/

/-- Open levels with more levels around them. -/
def under (outer : List (Level × Nat)) (nesting : Nesting) : Nesting :=
  ⟨nesting.level, nesting.outer ++ outer⟩

variable {outer : List (Level × Nat)}

/-- A token does the same to levels that have others around them, unless it closes one of these or
opens one too many. -/
theorem next_under (hcloser : token.kind = .closer → nesting.outer ≠ [])
    (hopener : token.kind = .opener →
      groups + outer.length + nesting.outer.length < maxDepth) :
    (nesting.under outer).next groups token =
      (nesting.next 0 token).map (Option.map (under outer)) := by
  obtain ⟨level, inner⟩ := nesting
  dsimp only at hcloser hopener
  cases hkind : token.kind with
  | opener =>
    have hlt := hopener hkind
    have hunder : groups + (inner ++ outer).length < maxDepth := by
      rw [List.length_append]
      omega
    have halone : 0 + inner.length < maxDepth := by omega
    rw [next_of_opener hkind halone]
    exact next_of_opener hkind hunder
  | closer =>
    obtain ⟨⟨around, offset⟩, inner, rfl⟩ := List.exists_cons_of_ne_nil (hcloser hkind)
    rw [next_of_closer hkind]
    refine (next_of_closer hkind around offset).trans ?_
    cases level.fold <;> rfl
  | separator =>
    rw [next_of_separator hkind, next_of_separator hkind]
    rfl
  | operator =>
    simp only [next, hkind]
    cases Operator.ofText? token.text <;> rfl
  | literal =>
    simp only [next, hkind, under]
    cases level.addArg? token.text <;> rfl
  | word =>
    refine (next_of_word hkind).trans ?_
    rw [next_of_word hkind]
    rfl

/-- Tokens that leave the levels around alone are read as if these were not there. -/
theorem read_under
    (hcloses : ∀ front, front <+: tokens → 0 ≤ (nesting.outer.length : Int) + surplus front)
    (hopens : ∀ front, front <+: tokens →
      (groups + outer.length + nesting.outer.length : Int) + surplus front ≤ maxDepth) :
    (nesting.under outer).read groups tokens =
      (nesting.read 0 tokens).map fun (last, rest) => (last.under outer, rest) := by
  induction tokens generalizing nesting with
  | nil => rfl
  | cons token tokens ih =>
    have hfirst : [token] <+: token :: tokens := List.prefix_append [token] tokens
    have hclose := hcloses [token] hfirst
    have hopen := hopens [token] hfirst
    rw [Grammar.surplus_cons, Grammar.surplus_nil] at hclose hopen
    have hnext : (nesting.under outer).next groups token =
        (nesting.next 0 token).map (Option.map (under outer)) := by
      refine next_under ?_ ?_
      · intro hkind houter
        rw [houter, Token.weight_of_closer hkind, List.length_nil] at hclose
        omega
      · intro hkind
        rw [Token.weight_of_opener hkind] at hopen
        omega
    cases halone : nesting.next 0 token with
    | error e =>
      rw [halone] at hnext
      rw [read_cons_of_error halone, read_cons_of_error hnext]
      rfl
    | ok next? =>
      rw [halone] at hnext
      cases next? with
      | none =>
        rw [read_cons_of_none halone, read_cons_of_none hnext]
        rfl
      | some between =>
        rw [read_cons_of_some halone, read_cons_of_some hnext]
        have hlength := (advance_of_next halone).length_outer
        have hfronts : ∀ front, front <+: tokens → token :: front <+: token :: tokens :=
          fun front hfront => List.cons_prefix_cons.mpr ⟨rfl, hfront⟩
        -- what is open behind the token has taken its weight into account
        refine ih ?_ ?_
        · intro front hfront
          have hclose' := hcloses (token :: front) (hfronts front hfront)
          rw [Grammar.surplus_cons] at hclose'
          omega
        · intro front hfront
          have hopen' := hopens (token :: front) (hfronts front hfront)
          rw [Grammar.surplus_cons] at hopen'
          omega

/-! ## Groups -/

variable {level : Level} {opening closing : Token} {ts : List Token} {n : Nat}

/-- Balanced tokens are read to the end, and all levels that they open are closed. -/
theorem eq_nil_of_read_balanced (hts : Balanced ts)
    (h : start.read groups ts = .ok (nesting', rest)) : rest = [] ∧ nesting'.outer = [] := by
  have hrest : rest = [] := by
    refine eq_nil_of_read ?_ h
    intro front hfront
    have hnonneg := hts.nonneg front hfront
    simpa [start] using hnonneg
  subst hrest
  have hlength := length_outer_of_read h
  rw [hts.settled, Int.add_zero] at hlength
  exact ⟨rfl, List.length_eq_zero_iff.mp (Int.ofNat_inj.mp hlength)⟩

/-- Balanced tokens on a level of their own are read as they are read alone. -/
theorem read_start_under (hts : Balanced ts) (hnests : NestsWithin n ts)
    (hdepth : groups + outer.length + n ≤ maxDepth) :
    (start.under outer).read groups ts =
      (start.read 0 ts).map fun (last, rest) => (last.under outer, rest) := by
  refine read_under ?_ ?_
  · intro front hfront
    have hnonneg := hts.nonneg front hfront
    simpa [start] using hnonneg
  · intro front hfront
    have hle := hnests front hfront
    simp only [start, List.length_nil]
    omega

end Nesting

/-- Balanced tokens are read as one level, to the end. -/
theorem readLevel_of_balanced {ts : List Token} (hts : Balanced ts) (groups : Nat) :
    readLevel groups ts =
      (Nesting.start.read groups ts >>= fun found => found.1.level.fold) >>= fun group =>
        .ok (group, []) := by
  rw [readLevel]
  cases hread : Nesting.start.read groups ts with
  | error e => rfl
  | ok found =>
    obtain ⟨⟨level, outer⟩, rest⟩ := found
    obtain ⟨rfl, rfl⟩ := Nesting.eq_nil_of_read_balanced hts hread
    simp only [ok_bind, Nesting.close]
    cases level.fold <;> rfl

/-- Behind a closing bracket the level around is read on, if the level inside it is an
expression. -/
theorem Nesting.read_cons_of_closer {groups : Nat} {level : Level} {outer : List (Level × Nat)}
    {token : Token} (h : token.kind = .closer) (around : Level) (offset : Nat)
    (tokens : List Token) :
    read groups ⟨level, (around, offset) :: outer⟩ (token :: tokens) =
      level.fold >>= fun group =>
        read groups ⟨around.push (.operand ⟨group, offset⟩), outer⟩ tokens := by
  rw [read, next_of_closer h]
  cases level.fold <;> rfl

/-- A group with balanced tokens inside is one operand of its level, that which the tokens are when
they are read alone. -/
theorem Nesting.read_group {groups n : Nat} {level : Level} {outer : List (Level × Nat)}
    {opening closing : Token} {ts : List Token} (hopening : opening.kind = .opener)
    (hclosing : closing.kind = .closer) (hts : Balanced ts) (hnests : NestsWithin n ts)
    (hdepth : groups + outer.length + 1 + n ≤ maxDepth) (post : List Token) :
    read groups ⟨level, outer⟩ (opening :: ts ++ closing :: post) =
      readLevel 0 ts >>= fun found =>
        read groups ⟨level.push (.operand ⟨found.1, opening.offset⟩), outer⟩ post := by
  have hinside : read groups ⟨level, outer⟩ (opening :: ts ++ closing :: post) =
      (start.under ((level, opening.offset) :: outer)).read groups (ts ++ closing :: post) :=
    read_cons_of_some (next_of_opener hopening (by omega))
  have hunder : (start.under ((level, opening.offset) :: outer)).read groups ts =
      (start.read 0 ts).map fun (last, rest) =>
        (last.under ((level, opening.offset) :: outer), rest) :=
    read_start_under hts hnests (by rw [List.length_cons]; omega)
  rw [hinside, read_append, hunder, readLevel_of_balanced hts]
  cases hread : start.read 0 ts with
  | error e => rfl
  | ok found =>
    obtain ⟨⟨last, inner⟩, rest⟩ := found
    obtain ⟨rfl, rfl⟩ := eq_nil_of_read_balanced hts hread
    refine (read_cons_of_closer hclosing level opening.offset post).trans ?_
    rw [ok_bind]
    cases last.fold <;> rfl

end PredicateExpr
