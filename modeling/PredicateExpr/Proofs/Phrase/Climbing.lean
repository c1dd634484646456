import Mathlib.Tactic.Common
import PredicateExpr.Phrase.Climbing
import PredicateExpr.Proofs.Phrase.Chains

/-!
# Passes over a phrase and one reading of it

Passes from right to left join the operands of a phrase tier by tier, and precedence climbing reads
it once from left to right. Both find the tree that the grammar gives to the phrase. For the passes
this is known; here it is shown for the reading.

A reading at some strength takes a phrase in whose outermost level no connective is weaker
(`Phrase.Layer`), and stops in front of what is weaker (`Phrase.Loose`), so that what was read is
known without its surroundings (`Phrase.exists_of_climb?`). Conversely a chain is read link by link,
because a reading at some strength goes on where one at a higher strength stopped
(`Phrase.climbed?_bind`).
-/

namespace PredicateExpr.Phrase

variable {strength tighter : Nat} {left t : Tree Atom} {p q front rest : Phrase}

/-! ## Layers by strength -/

/-- The phrases with no connective weaker than a given strength outside their operands, with their
trees. -/
def Layer : (strength : Nat) → Phrase → Tree Atom → Prop
  | 0 => Forms (.chain .or)
  | 1 => Forms (.chain .xor)
  | 2 => Forms (.chain .and)
  | _ => Forms .negation

/-- The links of a chain are phrases of the next layer. -/
theorem layer_strength (c : Connective) :
    Layer c.strength = Chain c (Layer (c.strength + 1)) := by
  cases c <;> rfl

/-- Where weak connectives are allowed, none has to be there. -/
theorem Layer.mono (hle : strength ≤ tighter) (h : Layer tighter p t) : Layer strength p t := by
  induction hle with
  | refl => exact h
  | @step n _ ih =>
    refine ih ?_
    match n, h with
    | 0, h => exact .one h
    | 1, h => exact .one h
    | 2, h => exact .one h
    | _ + 3, h => exact h

/-- A phrase that does not begin with a connective of a given strength or more. -/
def Loose (strength : Nat) (phrase : Phrase) : Prop :=
  ∀ c offset rest, phrase = .operator (.binary c) offset :: rest → c.strength < strength

/-- No connective has the strength of a negation. -/
theorem loose_three (p : Phrase) : Loose 3 p := by
  rintro (_ | _ | _) offset rest - <;> decide

theorem loose_nil (strength : Nat) : Loose strength [] := nofun

/-- A phrase that begins with a weaker connective is loose. -/
theorem loose_operator {c : Connective} (h : c.strength < strength) (offset : Nat) (p : Phrase) :
    Loose strength (.operator (.binary c) offset :: p) := by
  rintro d place rest heq
  cases heq
  exact h

/-- What is weaker than a strength is weaker than a higher one. -/
theorem Loose.mono (hle : strength ≤ tighter) (h : Loose strength p) : Loose tighter p :=
  fun c offset rest heq => Nat.lt_of_lt_of_le (h c offset rest heq) hle

/-! ## What was read -/

/-- What is read first is an operand with the negations in front of it. -/
theorem exists_of_leading? (h : leading? p = some (t, rest)) :
    ∃ q, p = q ++ rest ∧ Negated q t := by
  fun_induction leading? p generalizing t with
  | case1 o tail =>
    cases h
    exact ⟨[.operand o], rfl, .operand o⟩
  | case2 offset tail ih =>
    obtain ⟨found, hfound, heq⟩ := Option.map_eq_some_iff.mp h
    cases heq
    obtain ⟨q, rfl, hq⟩ := ih hfound
    exact ⟨.operator .not offset :: q, rfl, hq.not offset⟩
  | case3 => cases h

/-- Reading on takes a stretch of the phrase that makes a phrase of the layer, together with the one
that the left operand was read from. The next connective must be one that can follow the latter. -/
theorem exists_of_climb? {found : { found : Tree Atom × Phrase // found.2.length ≤ p.length }}
    (h : climb? strength left p = some found) (hleft : Layer tighter front left)
    (hle : strength ≤ tighter) (hloose : Loose tighter p) :
    ∃ q, p = q ++ found.1.2 ∧ Layer strength (front ++ q) found.1.1 ∧
      Loose strength found.1.2 := by
  fun_induction climb? strength left p generalizing tighter front with
  | case1 strength left c offset behind hlt =>
    cases h
    refine ⟨[], rfl, ?_, loose_operator hlt offset behind⟩
    rw [List.append_nil]
    exact hleft.mono hle
  | case2 | case3 | case4 => cases h
  | case5 strength left c offset behind hlt first behind' hleading _ right behind'' hright
      hclimb _ found hfound hclimb' ihright ihjoin =>
    cases h
    -- the right operand begins with an operand and goes on with what binds as tightly as `c`
    obtain ⟨q₁, rfl, hnegated⟩ := exists_of_leading? hleading
    have hfirst : Layer 3 q₁ first := hnegated
    obtain ⟨q₂, hbehind, hq, hloose'⟩ :=
      ihright hclimb hfirst (by cases c <;> decide) (loose_three behind')
    have hjoin : Layer c.strength (front ++ .operator (.binary c) offset :: (q₁ ++ q₂))
        (.join c left right) := by
      have hstrong : c.strength < tighter := hloose c offset _ rfl
      rw [layer_strength] at hq ⊢
      exact .join offset (hleft.mono hstrong) hq
    obtain ⟨q₃, hbehind', hfinal, hend⟩ := ihjoin hclimb' hjoin (Nat.not_lt.mp hlt) hloose'
    have htaken : q₁ ++ behind' = q₁ ++ q₂ ++ q₃ ++ found.2 := by
      simp only [hbehind, hbehind', List.append_assoc]
    refine ⟨.operator (.binary c) offset :: (q₁ ++ q₂ ++ q₃), congrArg (_ :: ·) htaken, ?_, hend⟩
    simpa using hfinal
  | case6 strength left p hnone =>
    cases h
    refine ⟨[], rfl, ?_, fun c offset rest heq => (hnone c offset rest heq).elim⟩
    rw [List.append_nil]
    exact hleft.mono hle

/-! ## Reading on -/

/-- Reads on after a left operand, through operators of at least a given strength. -/
def climbed? (strength : Nat) (left : Tree Atom) (phrase : Phrase) :
    Option (Tree Atom × Phrase) :=
  (climb? strength left phrase).map Subtype.val

/-- Reads the operand at the beginning of a phrase, and on after it. -/
def reading? (strength : Nat) (phrase : Phrase) : Option (Tree Atom × Phrase) :=
  (leading? phrase).bind fun found => climbed? strength found.1 found.2

/-- Nothing is read on where no connective is strong enough. -/
theorem climbed?_of_loose (h : Loose strength p) (left : Tree Atom) :
    climbed? strength left p = some (left, p) := by
  rw [climbed?, climb?.eq_def]
  split
  · rename_i c offset rest
    rw [if_pos (h c offset rest rfl)]
    rfl
  · rfl

/-- A connective that is strong enough joins what was read before it to what is read behind it. -/
theorem climbed?_of_le {c : Connective} (h : strength ≤ c.strength) (left : Tree Atom)
    (offset : Nat) (p : Phrase) :
    climbed? strength left (.operator (.binary c) offset :: p) =
      (reading? c.strength p).bind fun found =>
        climbed? strength (.join c left found.1) found.2 := by
  rw [climbed?, climb?.eq_def]
  simp only [if_neg (Nat.not_lt.mpr h)]
  split
  · rename_i hleading
    rw [reading?, hleading]
    rfl
  · rename_i first behind hleading
    have hreading : reading? c.strength p = climbed? c.strength first behind := by
      rw [reading?, hleading, Option.bind_some]
    rw [hreading, climbed?]
    cases climb? c.strength first behind with
    | none => rfl
    | some found =>
      simp only [Option.map_some, Option.bind_some, climbed?]
      cases climb? strength (.join c left found.1.1) found.1.2 <;> rfl

/-- What remains after an operand is shorter than the phrase. -/
theorem length_lt_of_reading? {found : Tree Atom × Phrase} (h : reading? strength p = some found) :
    found.2.length < p.length := by
  obtain ⟨⟨first, behind⟩, hleading, hclimbed⟩ := Option.bind_eq_some_iff.mp h
  obtain ⟨⟨found, hle⟩, -, rfl⟩ := Option.map_eq_some_iff.mp hclimbed
  exact Nat.lt_of_le_of_lt hle (length_lt_of_leading? hleading)

/-- To read on at some strength is to read on at a higher one first. -/
theorem climbed?_bind (hle : strength ≤ tighter) (left : Tree Atom) (p : Phrase) :
    ((climbed? tighter left p).bind fun found => climbed? strength found.1 found.2) =
      climbed? strength left p := by
  induction hlength : p.length using Nat.strongRecOn generalizing left p with
  | ind n ih =>
    by_cases hloose : Loose tighter p
    · rw [climbed?_of_loose hloose, Option.bind_some]
    · -- both readings take the connective, and what follows its right operand is shorter
      simp only [Loose, not_forall, Nat.not_lt] at hloose
      obtain ⟨c, offset, rest, rfl, hstrong⟩ := hloose
      rw [climbed?_of_le hstrong, climbed?_of_le (Nat.le_trans hle hstrong), Option.bind_assoc]
      refine Option.bind_congr fun found hfound => ?_
      have hlt := length_lt_of_reading? hfound
      rw [List.length_cons] at hlength
      exact ih found.2.length (by omega) _ _ rfl

/-- To read at some strength is to read at a higher one and then to read on. -/
theorem reading?_bind (hle : strength ≤ tighter) (p : Phrase) :
    ((reading? tighter p).bind fun found => climbed? strength found.1 found.2) =
      reading? strength p := by
  rw [reading?, reading?, Option.bind_assoc]
  exact Option.bind_congr fun found _ => climbed?_bind hle found.1 found.2

/-! ## What is read -/

/-- A negated operand is read as it is, whatever follows it. -/
theorem leading?_of_negated (h : Negated p t) (rest : Phrase) :
    leading? (p ++ rest) = some (t, rest) := by
  induction h with
  | operand o => rfl
  | not offset _ ih =>
    rw [List.cons_append, leading?, ih]
    rfl

/-- At the strength of a negation nothing is read behind a negated operand. -/
theorem reading?_of_negated (h : Negated p t) (rest : Phrase) :
    reading? 3 (p ++ rest) = some (t, rest) := by
  rw [reading?, leading?_of_negated h, Option.bind_some, climbed?_of_loose (loose_three rest)]

/-- A chain is read up to what is weaker than its connective, if its links are. -/
theorem reading?_of_chain {c : Connective} {P : Phrase → Tree Atom → Prop}
    (hP : ∀ {p t rest}, P p t → Loose (c.strength + 1) rest →
      reading? (c.strength + 1) (p ++ rest) = some (t, rest))
    (h : Chain c P p t) (hrest : Loose c.strength rest) :
    reading? c.strength (p ++ rest) = some (t, rest) := by
  induction h with
  | one hp =>
    rw [← reading?_bind (Nat.le_succ _), hP hp (hrest.mono (Nat.le_succ _))]
    exact climbed?_of_loose hrest _
  | @join p q l r offset hp _ ih =>
    have hlink := hP hp (loose_operator (Nat.lt_succ_self _) offset (q ++ rest))
    rw [List.append_assoc, List.cons_append, ← reading?_bind (Nat.le_succ _), hlink,
      Option.bind_some, climbed?_of_le (Nat.le_refl _), ih, Option.bind_some]
    exact climbed?_of_loose hrest _

/-- A phrase of the form of an alternative is read to its end. The layers of the form are the
strengths at which it is read. -/
theorem reading?_of_forms (h : Forms (.chain .or) p t) : reading? 0 p = some (t, []) := by
  have hand : ∀ {p t rest}, Forms (.chain .and) p t → Loose 2 rest →
      reading? 2 (p ++ rest) = some (t, rest) :=
    reading?_of_chain (c := .and) fun h _ => reading?_of_negated h _
  have hxor : ∀ {p t rest}, Forms (.chain .xor) p t → Loose 1 rest →
      reading? 1 (p ++ rest) = some (t, rest) :=
    reading?_of_chain (c := .xor) hand
  have hor := reading?_of_chain (c := .or) hxor h (loose_nil 0)
  rwa [List.append_nil] at hor

/-- A phrase is an expression by climbing when it is empty, or read to its end. -/
theorem climbing?_eq_some_iff :
    climbing? p = some t ↔ p = [] ∧ t = .empty ∨ reading? 0 p = some (t, []) := by
  cases p with
  | nil => simp [climbing?, reading?, leading?, eq_comm]
  | cons piece p =>
    simp only [climbing?, reading?, climbed?]
    cases leading? (piece :: p) with
    | none => simp
    | some found =>
      obtain ⟨first, behind⟩ := found
      simp only [Option.bind_some]
      cases climb? 0 first behind with
      | none => simp
      | some found =>
        obtain ⟨⟨u, rest⟩, hle⟩ := found
        cases rest <;> simp

/-- Climbing finds the tree that the grammar gives to a phrase. -/
theorem climbing?_eq_some_iff_forms : climbing? p = some t ↔ Forms .expression p t := by
  rw [climbing?_eq_some_iff, forms_expression_iff]
  refine or_congr_right ⟨fun h => ?_, reading?_of_forms⟩
  obtain ⟨⟨first, behind⟩, hleading, hclimbed⟩ := Option.bind_eq_some_iff.mp h
  obtain ⟨⟨_, hle⟩, hclimb, rfl⟩ := Option.map_eq_some_iff.mp hclimbed
  obtain ⟨q, rfl, hnegated⟩ := exists_of_leading? hleading
  have hfirst : Layer 3 q first := hnegated
  obtain ⟨q', hbehind, hforms, -⟩ :=
    exists_of_climb? hclimb hfirst (by decide) (loose_three behind)
  obtain rfl : behind = q' := hbehind.trans (List.append_nil q')
  exact hforms

/-! ## Both ways -/

/-- The passes over a phrase find an expression just where one reading from left to right reads the
whole phrase as that expression and its tree is within the limit. The height that they carry along
is the height of the tree. -/
theorem fold_eq_climbing {height : Nat} (hexact : Exact p) (hlow : Low p) :
    p.fold = .ok ⟨t, height⟩ ↔
      p.climbing? = some t ∧ t.height ≤ maxDepth ∧ height = t.height := by
  rw [climbing?_eq_some_iff_forms]
  constructor
  · intro h
    obtain ⟨hforms, hheight, hle⟩ := forms_of_fold hexact hlow h
    exact ⟨hforms, hle, hheight⟩
  · rintro ⟨hforms, hle, rfl⟩
    exact fold_of_forms hexact hforms hle

/-- The entries of `!a | (!b) & !!c | a & c`, where the group is an operand already. -/
def mixedChains : Phrase :=
  [.operator .not 0, .operand (.ofAtom ⟨"a", []⟩ 1), .operator (.binary .or) 3,
    .operand ⟨⟨.not (.leaf ⟨"b", []⟩), 2⟩, 5⟩, .operator (.binary .and) 10, .operator .not 12,
    .operator .not 13, .operand (.ofAtom ⟨"c", []⟩ 14), .operator (.binary .or) 16,
    .operand (.ofAtom ⟨"a", []⟩ 18), .operator (.binary .and) 20, .operand (.ofAtom ⟨"c", []⟩ 22)]

/-- A chain of alternatives with chains and negations inside. The climb reads the tree that the
passes build, and the height that they find is its height. -/
theorem fold_eq_climbing_of_chains :
    Exact mixedChains ∧ Low mixedChains ∧
      mixedChains.climbing? = some (.join .or (.not (.leaf ⟨"a", []⟩))
        (.join .or (.join .and (.not (.leaf ⟨"b", []⟩)) (.not (.not (.leaf ⟨"c", []⟩))))
          (.join .and (.leaf ⟨"a", []⟩) (.leaf ⟨"c", []⟩)))) := by
  have hexact : Exact mixedChains := by
    simp [mixedChains, exact_operator_cons, exact_operand_cons, exact_nil, Operand.Exact,
      Operand.ofAtom, Tree.height]
  have hlow : Low mixedChains := by
    simp [mixedChains, low_operator_cons, low_operand_cons, low_nil, Operand.ofAtom, maxDepth]
  have hfold : mixedChains.fold = .ok ⟨.join .or (.not (.leaf ⟨"a", []⟩))
      (.join .or (.join .and (.not (.leaf ⟨"b", []⟩)) (.not (.not (.leaf ⟨"c", []⟩))))
        (.join .and (.leaf ⟨"a", []⟩) (.leaf ⟨"c", []⟩))), 6⟩ := by decide
  obtain ⟨hclimbing, -, -⟩ := (fold_eq_climbing hexact hlow).mp hfold
  exact ⟨hexact, hlow, hclimbing⟩

end PredicateExpr.Phrase
