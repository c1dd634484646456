import PredicateExpr.Grammar
import PredicateExpr.Proofs.Phrase.Passes

/-!
# The grammar of a phrase

Inside one level the grammar of expressions speaks of operands and operators only. `Phrase.Forms`
says which phrases belong to a category and which tree they have, where an operand stands for the
atom that it is. Whatever `Phrase.fold` finds is such a tree (`forms_of_fold`), and a phrase of the
grammar is folded to its tree (`fold_of_forms`) unless the tree is too tall
(`fold_of_forms_of_lt`).

The link is `BeforePass`: a pass turns the phrases of one layer of the grammar into those of the
next one, whatever connectives stand further out.
-/

namespace PredicateExpr.Phrase

open Grammar (Category)

/-! ## Layers of the grammar -/

/-- A single operand. -/
inductive Single : Phrase → Tree Atom → Prop
  | operand (o : Operand) : Single [.operand o] o.tree

/-- An operand with any number of negations in front. -/
inductive Negated : Phrase → Tree Atom → Prop
  | operand (o : Operand) : Negated [.operand o] o.tree
  | not {p : Phrase} {t : Tree Atom} (offset : Nat) :
      Negated p t → Negated (.operator .not offset :: p) (.not t)

/-- Parts of one layer, joined by a connective so that the chain leans to the right. -/
inductive Chain (c : Connective) (P : Phrase → Tree Atom → Prop) : Phrase → Tree Atom → Prop
  | one {p : Phrase} {t : Tree Atom} : P p t → Chain c P p t
  | join {p q : Phrase} {l r : Tree Atom} (offset : Nat) :
      P p l → Chain c P q r → Chain c P (p ++ .operator (.binary c) offset :: q) (.join c l r)

/-- The phrases of a syntactic category, with their trees. -/
def Forms : Category → Phrase → Tree Atom → Prop
  | .atom => Single
  | .negation => Negated
  | .chain .and => Chain .and Negated
  | .chain .xor => Chain .xor (Chain .and Negated)
  | .chain .or => Chain .or (Chain .xor (Chain .and Negated))
  | .expression => fun p t =>
    p = [] ∧ t = .empty ∨ Chain .or (Chain .xor (Chain .and Negated)) p t

/-- The phrases of a chain are chains of its operands. -/
theorem forms_chain (c : Connective) :
    Forms (.chain c) = Chain c (Forms (Grammar.operandOf c)) := by
  cases c <;> rfl

/-- A phrase is an expression when it is empty or a chain under the loosest connective. -/
theorem forms_expression_iff {p : Phrase} {t : Tree Atom} :
    Forms .expression p t ↔ p = [] ∧ t = .empty ∨ Forms (.chain .or) p t :=
  Iff.rfl

/-! ## What a pass does to a layer -/

/-- Passes do not reach across an operator of another kind. -/
theorem Absorbs.append {op other : Operator} {p₁ p₂ q₁ q₂ : Phrase} (hne : other ≠ op)
    (offset : Nat) (h₁ : Absorbs op p₁ q₁) (h₂ : Absorbs op p₂ q₂) :
    Absorbs op (p₁ ++ .operator other offset :: p₂) (q₁ ++ .operator other offset :: q₂) := by
  induction h₁ with
  | nil => exact h₂.other offset hne
  | operand o _ ih => exact (ih hne h₂).operand o
  | other place h _ ih => exact (ih hne h₂).other place h
  | negate place _ ih => exact (ih hne h₂).negate place
  | join l place _ ih => exact (ih hne h₂).join l place

/-- An operator that is left cuts the phrase at the place where it stood before. -/
theorem Absorbs.split {op other : Operator} {p q₁ q₂ : Phrase} {offset : Nat}
    (h : Absorbs op p (q₁ ++ .operator other offset :: q₂)) :
    ∃ p₁ p₂, p = p₁ ++ .operator other offset :: p₂ ∧ Absorbs op p₁ q₁ ∧ Absorbs op p₂ q₂ := by
  generalize hq : q₁ ++ .operator other offset :: q₂ = q at h
  induction h generalizing q₁ with
  | nil => simp at hq
  | operand o _ ih =>
    obtain ⟨rfl, hcons⟩ | ⟨q₁, rfl, rfl⟩ := List.append_eq_cons_iff.mp hq
    · cases hcons
    · obtain ⟨p₁, p₂, rfl, h₁, h₂⟩ := ih rfl
      exact ⟨.operand o :: p₁, p₂, rfl, h₁.operand o, h₂⟩
  | @other _ kept p _ place hne habsorbs ih =>
    obtain ⟨rfl, hcons⟩ | ⟨q₁, rfl, rfl⟩ := List.append_eq_cons_iff.mp hq
    · cases hcons
      exact ⟨[], p, rfl, .nil, habsorbs⟩
    · obtain ⟨p₁, p₂, rfl, h₁, h₂⟩ := ih rfl
      exact ⟨.operator kept place :: p₁, p₂, rfl, h₁.other place hne, h₂⟩
  | @negate _ _ o place _ ih =>
    obtain ⟨rfl, hcons⟩ | ⟨q₁, rfl, rfl⟩ := List.append_eq_cons_iff.mp hq
    · cases hcons
    · obtain ⟨p₁, p₂, rfl, h₁, h₂⟩ := @ih (.operand o :: q₁) rfl
      exact ⟨.operator .not place :: p₁, p₂, rfl, h₁.negate place, h₂⟩
  | @join c _ _ r l place _ ih =>
    obtain ⟨rfl, hcons⟩ | ⟨q₁, rfl, rfl⟩ := List.append_eq_cons_iff.mp hq
    · cases hcons
    · obtain ⟨p₁, p₂, rfl, h₁, h₂⟩ := @ih (.operand r :: q₁) rfl
      exact ⟨.operand l :: .operator (.binary c) place :: p₁, p₂, rfl, h₁.join l place, h₂⟩

/-- The layer `P'` before a pass is the layer `P` after it. -/
def BeforePass (op : Operator) (P P' : Phrase → Tree Atom → Prop) : Prop :=
  ∀ p t, P' p t ↔ ∃ q, Absorbs op p q ∧ P q t

/-- What is left as one operand was an operand with negations. -/
theorem negated_of_absorbs {p q : Phrase} {o : Operand} (h : Absorbs .not p q)
    (hq : q = [.operand o]) : Negated p o.tree := by
  generalize hop : Operator.not = op at h
  induction h generalizing o with
  | nil => cases hq
  | operand o' h _ =>
    cases hq
    cases h
    exact .operand o'
  | other => cases hq
  | negate offset _ ih =>
    cases hq
    exact (ih rfl rfl).not offset
  | join => cases hop

/-- The pass for negations turns operands with negations into operands. -/
theorem beforePass_negated : BeforePass .not Single Negated := by
  intro p t
  constructor
  · intro h
    induction h with
    | operand o => exact ⟨_, Absorbs.nil.operand o, .operand o⟩
    | not offset _ ih =>
      obtain ⟨_, habsorbs, ⟨o⟩⟩ := ih
      exact ⟨_, habsorbs.negate offset, .operand (o.negated offset)⟩
  · rintro ⟨_, habsorbs, ⟨o⟩⟩
    exact negated_of_absorbs habsorbs rfl

/-- What is left as one operand was a chain of operands. -/
theorem chain_of_absorbs {c : Connective} {p q : Phrase} {o : Operand}
    (h : Absorbs (.binary c) p q) (hq : q = [.operand o]) : Chain c Single p o.tree := by
  generalize hop : Operator.binary c = op at h
  induction h generalizing o with
  | nil => cases hq
  | operand o' h _ =>
    cases hq
    cases h
    exact .one (.operand o')
  | other => cases hq
  | negate => cases hop
  | join l offset _ ih =>
    cases hq
    cases hop
    exact Chain.join offset (.operand l) (ih rfl rfl)

/-- The pass for a connective turns its chains of operands into operands. -/
theorem beforePass_chain_single (c : Connective) :
    BeforePass (.binary c) Single (Chain c Single) := by
  intro p t
  constructor
  · intro h
    induction h with
    | one h =>
      obtain ⟨o⟩ := h
      exact ⟨_, Absorbs.nil.operand o, .operand o⟩
    | join offset hl _ ih =>
      obtain ⟨l⟩ := hl
      obtain ⟨_, habsorbs, ⟨r⟩⟩ := ih
      exact ⟨_, habsorbs.join l offset, .operand (.joined c l r)⟩
  · rintro ⟨_, habsorbs, ⟨o⟩⟩
    exact chain_of_absorbs habsorbs rfl

/-- A pass works in every link of a chain under another connective. -/
theorem BeforePass.chain {op : Operator} {P P' : Phrase → Tree Atom → Prop}
    (h : BeforePass op P P') {c : Connective} (hne : .binary c ≠ op) :
    BeforePass op (Chain c P) (Chain c P') := by
  intro p t
  constructor
  · intro hchain
    induction hchain with
    | one hp =>
      obtain ⟨q, habsorbs, hq⟩ := (h _ _).mp hp
      exact ⟨q, habsorbs, .one hq⟩
    | join offset hp _ ih =>
      obtain ⟨q₁, habsorbs₁, hq₁⟩ := (h _ _).mp hp
      obtain ⟨q₂, habsorbs₂, hq₂⟩ := ih
      exact ⟨_, habsorbs₁.append hne offset habsorbs₂, .join offset hq₁ hq₂⟩
  · rintro ⟨q, habsorbs, hq⟩
    induction hq generalizing p with
    | one hq => exact .one ((h _ _).mpr ⟨_, habsorbs, hq⟩)
    | join offset hq₁ _ ih =>
      obtain ⟨p₁, p₂, rfl, h₁, h₂⟩ := habsorbs.split
      exact .join offset ((h _ _).mpr ⟨_, h₁, hq₁⟩) (ih _ h₂)

/-- The layer `P'` before a row of passes is the layer `P` after it. -/
def BeforePasses (ops : List Operator) (P P' : Phrase → Tree Atom → Prop) : Prop :=
  ∀ p t, P' p t ↔ ∃ q, AbsorbsAll ops p q ∧ P q t

/-- Without a pass the layers are the same. -/
theorem BeforePasses.nil {P : Phrase → Tree Atom → Prop} : BeforePasses [] P P := by
  intro p t
  constructor
  · intro h
    exact ⟨p, .nil, h⟩
  · rintro ⟨q, hall, h⟩
    cases hall
    exact h

/-- A pass in front of a row of passes puts one more layer in front of theirs. -/
theorem BeforePass.cons {op : Operator} {ops : List Operator}
    {P P' P'' : Phrase → Tree Atom → Prop} (h : BeforePass op P' P'')
    (hops : BeforePasses ops P P') : BeforePasses (op :: ops) P P'' := by
  intro p t
  constructor
  · intro hp
    obtain ⟨q, habsorbs, hq⟩ := (h _ _).mp hp
    obtain ⟨r, hall, hr⟩ := (hops _ _).mp hq
    exact ⟨r, .cons habsorbs hall, hr⟩
  · rintro ⟨r, hall, hr⟩
    cases hall with
    | cons habsorbs hall => exact (h _ _).mpr ⟨_, habsorbs, (hops _ _).mpr ⟨r, hall, hr⟩⟩

/-- The passes by precedence turn the chains under the loosest connective into operands. -/
theorem beforePasses_precedence :
    BeforePasses Operator.precedence Single (Forms (.chain .or)) := by
  have hnot : BeforePass .not (Chain .or (Chain .xor (Chain .and Single)))
      (Forms (.chain .or)) :=
    ((beforePass_negated.chain (by decide)).chain (by decide)).chain (by decide)
  have hand : BeforePass (.binary .and) (Chain .or (Chain .xor Single))
      (Chain .or (Chain .xor (Chain .and Single))) :=
    ((beforePass_chain_single .and).chain (by decide)).chain (by decide)
  have hxor : BeforePass (.binary .xor) (Chain .or Single) (Chain .or (Chain .xor Single)) :=
    (beforePass_chain_single .xor).chain (by decide)
  have hor : BeforePass (.binary .or) Single (Chain .or Single) := beforePass_chain_single .or
  exact hnot.cons (hand.cons (hxor.cons (hor.cons .nil)))

/-! ## The fold of a phrase -/

/-- Only of the empty phrase nothing is left. -/
theorem AbsorbsAll.eq_nil {ops : List Operator} {p q : Phrase} (h : AbsorbsAll ops p q)
    (hq : q = []) : p = [] := by
  induction h with
  | nil => exact hq
  | cons habsorbs _ ih =>
    obtain rfl := ih hq
    cases habsorbs
    rfl

/-- What amounts to an expression is empty or a single operand. -/
theorem only_eq_ok_iff {p : Phrase} {m : Measured} :
    p.only = .ok m ↔ p = [] ∧ m = ⟨.empty, 1⟩ ∨ ∃ o, p = [.operand o] ∧ m = o.toMeasured := by
  unfold only
  split <;> simp [eq_comm]

/-- Whatever a phrase is folded to is its tree by the grammar, with the height of that tree. -/
theorem forms_of_fold {p : Phrase} {m : Measured} (hexact : Exact p) (hlow : Low p)
    (h : p.fold = .ok m) :
    Forms .expression p m.tree ∧ m.height = m.tree.height ∧ m.tree.height ≤ maxDepth := by
  obtain ⟨q, hpasses, honly⟩ := bind_eq_ok_iff.mp h
  have hall := absorbsAll_of_foldlM_pass hpasses
  obtain ⟨rfl, rfl⟩ | ⟨o, rfl, rfl⟩ := only_eq_ok_iff.mp honly
  · exact ⟨.inl ⟨hall.eq_nil rfl, rfl⟩, rfl, by decide⟩
  · have hheight : o.height = o.tree.height := (exact_operand_cons.mp (hall.exact hexact)).1
    have hle : o.height ≤ maxDepth :=
      (low_operand_cons.mp (low_of_foldlM_pass hlow hpasses)).1
    have hforms := (beforePasses_precedence _ _).mpr ⟨_, hall, .operand o⟩
    exact ⟨.inr hforms, hheight, hheight ▸ hle⟩

/-- A phrase of the grammar is folded to its tree, within the limit. -/
theorem fold_of_forms {p : Phrase} {t : Tree Atom} (hexact : Exact p)
    (h : Forms .expression p t) (hle : t.height ≤ maxDepth) : p.fold = .ok ⟨t, t.height⟩ := by
  obtain ⟨rfl, rfl⟩ | hforms := forms_expression_iff.mp h
  · rfl
  · obtain ⟨_, hall, ⟨o⟩⟩ := (beforePasses_precedence _ _).mp hforms
    have hheight : o.height = o.tree.height := (exact_operand_cons.mp (hall.exact hexact)).1
    have hlow : Low [.operand o] := low_operand_cons.mpr ⟨hheight ▸ hle, low_nil⟩
    rw [fold, foldlM_pass_of_absorbsAll hall hlow, ok_bind, ← hheight]
    rfl

/-- A phrase of the grammar whose tree is beyond the limit is refused for that alone. -/
theorem fold_of_forms_of_lt {p : Phrase} {t : Tree Atom} (hexact : Exact p) (hlow : Low p)
    (h : Forms .expression p t) (hlt : maxDepth < t.height) :
    ∃ offset, p.fold = .error (.operatorsTooDeep offset) := by
  obtain ⟨rfl, rfl⟩ | hforms := forms_expression_iff.mp h
  · exact absurd hlt (by decide)
  · obtain ⟨_, hall, ⟨o⟩⟩ := (beforePasses_precedence _ _).mp hforms
    have hheight : o.height = o.tree.height := (exact_operand_cons.mp (hall.exact hexact)).1
    have htall : ¬ Low [.operand o] := by
      intro hle
      exact Nat.not_le.mpr hlt (hheight ▸ (low_operand_cons.mp hle).1)
    obtain ⟨offset, hpasses⟩ := foldlM_pass_of_absorbsAll_of_not_low hall hlow htall
    exact ⟨offset, by rw [fold, hpasses, error_bind]⟩

end PredicateExpr.Phrase
