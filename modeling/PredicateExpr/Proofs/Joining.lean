import PredicateExpr.Proofs.Evaluation
import PredicateExpr.Proofs.Nesting.Completeness
import PredicateExpr.Proofs.Nesting.Soundness

/-!
# Joining expressions by an operator

Two expressions with an operator between them are an expression again. Its tree need not be an
operation on the two trees: where the operator continues a chain of the left one, the chain is
grouped anew. The value is what the operator makes of the two expressions all the same, with the
same calls in the same order (`parse_joined`), as long as nothing outside the brackets of the two
binds looser than the operator.
-/

namespace PredicateExpr

open Grammar (Category Derives Spells significant outside tooDeep?)

/-! ## Operators outside all groups -/

/-- The place of an operator in the order of precedence, 0 for the one that binds tightest. -/
def Operator.rank (op : Operator) : Nat :=
  precedence.idxOf op

namespace Grammar

/-- No operator outside the groups binds looser than a given one. -/
def BoundWithin (op : Operator) (tokens : List Token) : Prop :=
  ∀ token ∈ outside 0 tokens, ∀ other, Spells token other → other.rank ≤ op.rank

/-- Operators outside the significant tokens are operators outside the tokens. -/
theorem BoundWithin.significant {op : Operator} {tokens : List Token}
    (h : BoundWithin op tokens) : BoundWithin op (significant tokens) :=
  fun token hmem => h token (mem_outside_of_significant hmem)

/-- A chain whose connective is not to be found outside its groups is a single operand. -/
theorem Derives.operand_of_outside {c : Connective} {ts : List Token} {t : Tree Atom}
    (h : Derives (.chain c) ts t)
    (houtside : ∀ token ∈ outside 0 ts, ¬ Spells token (.binary c)) :
    Derives (operandOf c) ts t := by
  cases h with
  | operand h => exact h
  | @join _ ts us token l r hl hop hr =>
    have hmem : token ∈ outside 0 (ts ++ token :: us) := by
      rw [outside_append, hl.groupsAfter_eq, outside, if_pos rfl]
      exact List.mem_append_right _ List.mem_cons_self
    exact absurd hop (houtside token hmem)

/-- An expression in which no operator outside the groups binds looser than a given one is an
operand for it. -/
theorem Derives.of_boundWithin {op : Operator} {ts : List Token} {t : Tree Atom}
    (h : Derives (.chain .or) ts t) (hbound : BoundWithin op ts) :
    Derives (categoryOf op) ts t := by
  have habsent : ∀ c : Connective, op.rank < (Operator.binary c).rank →
      ∀ token ∈ outside 0 ts, ¬ Spells token (.binary c) := by
    intro c hlt token hmem hop
    exact Nat.not_le.mpr hlt (hbound token hmem _ hop)
  rcases op with _ | (_ | _ | _)
  · have hxor := h.operand_of_outside (habsent .or (by decide))
    have hand := hxor.operand_of_outside (habsent .xor (by decide))
    exact hand.operand_of_outside (habsent .and (by decide))
  · have hxor := h.operand_of_outside (habsent .or (by decide))
    exact hxor.operand_of_outside (habsent .xor (by decide))
  · exact h.operand_of_outside (habsent .or (by decide))
  · exact h

/-! ## Derivations of joined tokens -/

/-- Tokens that are there derive a chain under the loosest connective. -/
theorem Derives.chain_of_ne_nil {ts : List Token} {t : Tree Atom} (h : Derives .expression ts t)
    (hne : ts ≠ []) : Derives (.chain .or) ts t := by
  cases h with
  | empty => exact absurd rfl hne
  | chain h => exact h

/-- Two chains under a connective make up one. Its tree is grouped anew where the left chain has
more than one operand, which no evaluation can tell. -/
theorem Derives.exists_join {m : Type → Type} [Monad m] [LawfulMonad m] {c : Connective}
    {ts us : List Token} {token : Token} {l r : Tree Atom} (hl : Derives (.chain c) ts l)
    (hop : Spells token (.binary c)) (hr : Derives (.chain c) us r) :
    ∃ t, Derives (.chain c) (ts ++ token :: us) t ∧
      ∀ ask : Atom → m Bool, t.evaluate ask = c.combineM (l.evaluate ask) (r.evaluate ask) := by
  generalize hcategory : Category.chain c = category at hl
  induction hl with
  | operand h =>
    cases hcategory
    exact ⟨.join c _ r, .join h hop hr, fun ask => rfl⟩
  | @join _ ts vs first l₁ l₂ h hfirst _ _ ih =>
    cases hcategory
    obtain ⟨t, hderives, hevaluate⟩ := ih rfl
    refine ⟨.join c l₁ t, ?_, fun ask => ?_⟩
    · rw [List.append_assoc, List.cons_append]
      exact .join h hfirst hderives
    · rw [Tree.evaluate, hevaluate, Tree.evaluate, Connective.combineM_assoc]
  | empty | chain _ | atom _ | not _ _ | leaf _ _ | group _ _ _ => cases hcategory

end Grammar

/-! ## Values of joined expressions -/

/-- Tokens that derive a tree with no bracket inside too many groups parse to it, unless the tree
is too tall. -/
theorem parse_of_derives {tokens : List Token} {t : Tree Atom}
    (h : Derives .expression (significant tokens) t) (hdeep : tooDeep? 0 tokens = none) :
    (∃ offset, parse tokens = .error (.operatorsTooDeep offset)) ∨ parse tokens = .ok t := by
  have hcases := h.parse_cases
  rw [Grammar.tooDeep?_significant, parse_significant] at hcases
  rcases hcases with ⟨_, _, hparse⟩ | ⟨stuck, hstuck, _⟩ | ⟨_, htall⟩
  · exact .inr hparse
  · rw [hdeep] at hstuck
    cases hstuck
  · exact .inl htall

/-- An operator between two expressions joins their values, as long as no operator outside their
brackets binds looser, and a negation in front of an operand negates its value. The tokens are
refused only where the tree gets too tall. -/
theorem parse_joined {σ : Type} (answer : Atom → Option (Callback σ)) :
    (∀ (c : Connective) (token : Token) (left right : List Token) (l r : Tree Atom),
      parse left = .ok l → parse right = .ok r →
      significant left ≠ [] → significant right ≠ [] → Spells token (.binary c) →
      Grammar.BoundWithin (.binary c) left → Grammar.BoundWithin (.binary c) right →
      (∃ offset, parse (left ++ token :: right) = .error (.operatorsTooDeep offset)) ∨
        ∃ t, parse (left ++ token :: right) = .ok t ∧
          ∀ state, (Condition.resolved answer t).run state =
            Condition.runJoined c (Condition.resolved answer l) (Condition.resolved answer r)
              state) ∧
    (∀ (token : Token) (operand : List Token) (t : Tree Atom),
      parse operand = .ok t → significant operand ≠ [] → Spells token .not →
      Grammar.BoundWithin .not operand →
      (∃ offset, parse (token :: operand) = .error (.operatorsTooDeep offset)) ∨
        ∃ n, parse (token :: operand) = .ok n ∧
          ∀ state, (Condition.resolved answer n).run state =
            Condition.runNegated (Condition.resolved answer t) state) := by
  constructor
  · intro c token left right l r hl hr hleft hright hop hboundl hboundr
    obtain ⟨hderivesl, hdeepl, _⟩ := derives_of_parse hl
    obtain ⟨hderivesr, hdeepr, _⟩ := derives_of_parse hr
    obtain ⟨t, hderives, hevaluate⟩ := Grammar.Derives.exists_join (m := StateM (Run σ))
      ((hderivesl.chain_of_ne_nil hleft).of_boundWithin hboundl.significant) hop
      ((hderivesr.chain_of_ne_nil hright).of_boundWithin hboundr.significant)
    have hsignificant : significant (left ++ token :: right) =
        significant left ++ token :: significant right := by
      rw [Grammar.significant_append, Grammar.significant_cons (by simp [hop.1])]
    rw [← hsignificant] at hderives
    have hdeep : tooDeep? 0 (left ++ token :: right) = none := by
      rw [← Grammar.tooDeep?_significant, hsignificant, Grammar.tooDeep?_append,
        hderivesl.groupsAfter_eq, hop.tooDeep?_cons, Grammar.tooDeep?_significant,
        Grammar.tooDeep?_significant, hdeepl, hdeepr]
      rfl
    rcases parse_of_derives hderives.toExpression hdeep with htall | hparse
    · exact .inl htall
    · exact .inr ⟨t, hparse, fun state => Condition.run_resolved_of_evaluate hevaluate state⟩
  · intro token operand t ht hne hop hbound
    obtain ⟨hderivest, hdeept, _⟩ := derives_of_parse ht
    have hderives : Derives .negation (significant (token :: operand)) (.not t) := by
      rw [Grammar.significant_cons (by simp [hop.1])]
      exact .not hop ((hderivest.chain_of_ne_nil hne).of_boundWithin hbound.significant)
    have hdeep : tooDeep? 0 (token :: operand) = none := by
      rw [hop.tooDeep?_cons, hdeept]
    rcases parse_of_derives hderives.toExpression hdeep with htall | hparse
    · exact .inl htall
    · exact .inr ⟨.not t, hparse, fun state => Condition.run_resolved_not answer t state⟩

/-- Two chains under the connective that joins them, and a negation of a negation. -/
theorem parse_joined_of_alternatives :
    (parse [⟨.word, "a", 0⟩, ⟨.operator, "Or", 2⟩, ⟨.word, "b", 5⟩] =
        .ok (.join .or (.leaf ⟨"a", []⟩) (.leaf ⟨"b", []⟩)) ∧
      parse [⟨.word, "c", 10⟩, ⟨.operator, "&", 11⟩, ⟨.word, "d", 12⟩] =
        .ok (.join .and (.leaf ⟨"c", []⟩) (.leaf ⟨"d", []⟩)) ∧
      parse [⟨.operator, "!", 1⟩, ⟨.word, "a", 2⟩] = .ok (.not (.leaf ⟨"a", []⟩))) ∧
    (∀ answer : Atom → Option (Callback (List Atom)),
      ((∃ offset, parse [⟨.word, "a", 0⟩, ⟨.operator, "Or", 2⟩, ⟨.word, "b", 5⟩,
          ⟨.operator, "|", 9⟩, ⟨.word, "c", 10⟩, ⟨.operator, "&", 11⟩, ⟨.word, "d", 12⟩] =
          .error (.operatorsTooDeep offset)) ∨
        ∃ t, parse [⟨.word, "a", 0⟩, ⟨.operator, "Or", 2⟩, ⟨.word, "b", 5⟩,
            ⟨.operator, "|", 9⟩, ⟨.word, "c", 10⟩, ⟨.operator, "&", 11⟩, ⟨.word, "d", 12⟩] =
            .ok t ∧
          ∀ state, (Condition.resolved answer t).run state =
            Condition.runJoined .or
              (Condition.resolved answer (.join .or (.leaf ⟨"a", []⟩) (.leaf ⟨"b", []⟩)))
              (Condition.resolved answer (.join .and (.leaf ⟨"c", []⟩) (.leaf ⟨"d", []⟩)))
              state) ∧
      ((∃ offset, parse [⟨.operator, "!", 0⟩, ⟨.operator, "!", 1⟩, ⟨.word, "a", 2⟩] =
          .error (.operatorsTooDeep offset)) ∨
        ∃ n, parse [⟨.operator, "!", 0⟩, ⟨.operator, "!", 1⟩, ⟨.word, "a", 2⟩] = .ok n ∧
          ∀ state, (Condition.resolved answer n).run state =
            Condition.runNegated (Condition.resolved answer (.not (.leaf ⟨"a", []⟩)))
              state)) := by
  have hleft : parse [⟨.word, "a", 0⟩, ⟨.operator, "Or", 2⟩, ⟨.word, "b", 5⟩] =
      .ok (.join .or (.leaf ⟨"a", []⟩) (.leaf ⟨"b", []⟩)) := by decide
  have hright : parse [⟨.word, "c", 10⟩, ⟨.operator, "&", 11⟩, ⟨.word, "d", 12⟩] =
      .ok (.join .and (.leaf ⟨"c", []⟩) (.leaf ⟨"d", []⟩)) := by decide
  have hnegated : parse [⟨.operator, "!", 1⟩, ⟨.word, "a", 2⟩] =
      .ok (.not (.leaf ⟨"a", []⟩)) := by decide
  have hbound : ∀ tokens, Grammar.BoundWithin (.binary .or) tokens := by
    intro tokens token _ other _
    rcases other with _ | (_ | _ | _) <;> decide
  have hnot : Grammar.BoundWithin .not [⟨.operator, "!", 1⟩, ⟨.word, "a", 2⟩] := by
    intro token hmem other hop
    rcases List.mem_cons.mp hmem with rfl | hmem
    · rcases other with _ | (_ | _ | _) <;> revert hop <;> decide
    · rcases List.mem_singleton.mp hmem with rfl
      exact absurd hop.1 (by decide)
  refine ⟨⟨hleft, hright, hnegated⟩, fun answer => ⟨?_, ?_⟩⟩
  · exact (parse_joined answer).1 .or ⟨.operator, "|", 9⟩ _ _ _ _ hleft hright (by decide)
      (by decide) (by decide) (hbound _) (hbound _)
  · exact (parse_joined answer).2 ⟨.operator, "!", 0⟩ _ _ hnegated (by decide) (by decide) hnot

end PredicateExpr
