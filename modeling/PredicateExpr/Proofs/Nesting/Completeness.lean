import PredicateExpr.Proofs.Grammar.Brackets
import PredicateExpr.Proofs.Nesting.Reading
import PredicateExpr.Proofs.Phrase.Chains

/-!
# Reading what the grammar derives

The tokens of a derivation are read to their end, unless one of the two limits on depth is in the
way: `Derives.readsTo` follows a derivation and says what each part of it adds to the innermost
level. For whole expressions this leaves three outcomes (`Derives.parse_cases`).
-/

namespace PredicateExpr

open Grammar (Category Derives Spells tooDeep?)

/-! ## Parts of an expression -/

/-- What reading the tokens of a derivation comes to, inside `groups` groups. -/
inductive Nesting.ReadsTo (groups : Nat) (level : Level) (outer : List (Level × Nat))
    (category : Category) (ts : List Token) (t : Tree Atom) : Prop
  /-- The innermost level has grown by a phrase with the tree of the derivation. -/
  | done (phrase : Phrase) (grown : Level) :
      tooDeep? (groups + outer.length) ts = none → Phrase.Forms category phrase t →
      phrase.Exact → phrase.Low → grown.pieces = phrase.reverse ++ level.pieces →
      Nesting.read groups ⟨level, outer⟩ ts = .ok (⟨grown, outer⟩, []) →
      ReadsTo groups level outer category ts t
  /-- A bracket stands inside too many groups. -/
  | tooManyGroups (token : Token) :
      tooDeep? (groups + outer.length) ts = some token →
      Nesting.read groups ⟨level, outer⟩ ts = .error (.groupsTooDeep token.offset) →
      ReadsTo groups level outer category ts t
  /-- A group has too tall a tree. -/
  | tooTall (offset : Nat) :
      maxDepth < t.height →
      Nesting.read groups ⟨level, outer⟩ ts = .error (.operatorsTooDeep offset) →
      ReadsTo groups level outer category ts t

namespace Nesting

variable {groups : Nat} {level : Level} {outer : List (Level × Nat)} {token : Token}

/-- A phrase of one category may be one of another. -/
theorem ReadsTo.mono {category category' : Category} {ts : List Token} {t : Tree Atom}
    (hforms : ∀ phrase, Phrase.Forms category phrase t → Phrase.Forms category' phrase t)
    (h : ReadsTo groups level outer category ts t) :
    ReadsTo groups level outer category' ts t := by
  cases h with
  | done phrase grown hdeep h hexact hlow hpieces hread =>
    exact .done phrase grown hdeep (hforms phrase h) hexact hlow hpieces hread
  | tooManyGroups token hdeep hread => exact .tooManyGroups token hdeep hread
  | tooTall offset hlt hread => exact .tooTall offset hlt hread

/-- An operator that is read is an entry of the level. -/
theorem read_operator {op : Operator} (h : Spells token op) (tokens : List Token) :
    read groups ⟨level, outer⟩ (token :: tokens) =
      read groups ⟨level.push (.operator op token.offset), outer⟩ tokens :=
  read_cons_of_some (next_of_spells h)

/-- A chain is read by reading its first operand, the connective, and the chain behind it. -/
theorem ReadsTo.join {c : Connective} {ts us : List Token} {l r : Tree Atom}
    (hbalanced : ∀ n, Grammar.groupsAfter n ts = n) (hop : Spells token (.binary c))
    (hl : ∀ level, ReadsTo groups level outer (Grammar.operandOf c) ts l)
    (hr : ∀ level, ReadsTo groups level outer (.chain c) us r) :
    ReadsTo groups level outer (.chain c) (ts ++ token :: us) (.join c l r) := by
  have hdeep : tooDeep? (groups + outer.length) (ts ++ token :: us) =
      (tooDeep? (groups + outer.length) ts).or (tooDeep? (groups + outer.length) us) := by
    rw [Grammar.tooDeep?_append, hbalanced, hop.tooDeep?_cons]
  cases hl level with
  | tooManyGroups stuck hstuck hread =>
    exact .tooManyGroups stuck (by rw [hdeep, hstuck]; rfl) (read_append_of_error hread _)
  | tooTall offset hlt hread =>
    have htall : maxDepth < (Tree.join c l r).height := by
      simp only [Tree.height]
      omega
    exact .tooTall offset htall (read_append_of_error hread _)
  | done p grown hleft hforms hexact hlow hpieces hread =>
    have hrest := read_append_of_ok hread (token :: us)
    rw [read_operator hop] at hrest
    cases hr (grown.push (.operator (.binary c) token.offset)) with
    | tooManyGroups stuck hstuck hread' =>
      exact .tooManyGroups stuck (by rw [hdeep, hleft, hstuck]; rfl) (hrest.trans hread')
    | tooTall offset hlt hread' =>
      have htall : maxDepth < (Tree.join c l r).height := by
        simp only [Tree.height]
        omega
      exact .tooTall offset htall (hrest.trans hread')
    | done q grown' hright hforms' hexact' hlow' hpieces' hread' =>
      refine .done (p ++ .operator (.binary c) token.offset :: q) grown' ?_ ?_ ?_ ?_ ?_
        (hrest.trans hread')
      · rw [hdeep, hleft, hright]
        rfl
      · rw [Phrase.forms_chain] at hforms' ⊢
        exact .join _ hforms hforms'
      · exact Phrase.exact_append.mpr ⟨hexact, Phrase.exact_operator_cons.mpr hexact'⟩
      · exact Phrase.low_append.mpr ⟨hlow, Phrase.low_operator_cons.mpr hlow'⟩
      · rw [hpieces', Level.pieces_push, hpieces]
        simp

/-- A negation is read by reading its operator and its operand. -/
theorem ReadsTo.not {ts : List Token} {t : Tree Atom} (hop : Spells token .not)
    (h : ∀ level, ReadsTo groups level outer .negation ts t) :
    ReadsTo groups level outer .negation (token :: ts) (.not t) := by
  have hrest : read groups ⟨level, outer⟩ (token :: ts) =
      read groups ⟨level.push (.operator .not token.offset), outer⟩ ts :=
    read_operator hop ts
  have hdeep := hop.tooDeep?_cons (groups + outer.length) ts
  cases h (level.push (.operator .not token.offset)) with
  | tooManyGroups stuck hstuck hread =>
    exact .tooManyGroups stuck (hdeep.trans hstuck) (hrest.trans hread)
  | tooTall offset hlt hread =>
    have htall : maxDepth < (Tree.not t).height := Nat.lt_succ_of_lt hlt
    exact .tooTall offset htall (hrest.trans hread)
  | done p grown hnone hforms hexact hlow hpieces hread =>
    refine .done (.operator .not token.offset :: p) grown (hdeep.trans hnone) ?_ ?_ ?_ ?_
      (hrest.trans hread)
    · exact Phrase.Negated.not _ hforms
    · exact Phrase.exact_operator_cons.mpr hexact
    · exact Phrase.low_operator_cons.mpr hlow
    · rw [hpieces, Level.pieces_push]
      simp

/-- A name with its literals is read as an operand. -/
theorem ReadsTo.leaf {literals : List Token} (hword : token.kind = .word)
    (hliterals : ∀ literal ∈ literals, literal.kind = .literal) :
    ReadsTo groups level outer .atom (token :: literals)
      (.leaf ⟨token.text, literals.map Token.text⟩) := by
  have hread : read groups ⟨level, outer⟩ (token :: literals) =
      read groups ⟨level.openWord token.text token.offset, outer⟩ literals :=
    read_cons_of_some (next_of_word hword)
  rw [Level.openWord, read_literals hliterals] at hread
  refine .done [.operand (.ofAtom ⟨token.text, literals.map Token.text⟩ token.offset)] _
    ?_ (.operand _) ?_ ?_ ?_ hread
  · rw [Grammar.tooDeep?_cons_of_ne (by simp [hword]), Grammar.tooDeep?_literals hliterals]
  · exact Phrase.exact_operand_cons.mpr ⟨rfl, Phrase.exact_nil⟩
  · have hone : 1 ≤ maxDepth := by decide
    exact Phrase.low_operand_cons.mpr ⟨hone, Phrase.low_nil⟩
  · simp [Level.pieces]

/-- A group is read by reading the expression inside it on a level of its own. -/
theorem ReadsTo.group {closing : Token} {ts : List Token} {t : Tree Atom}
    (hopening : token.kind = .opener) (hclosing : closing.kind = .closer)
    (hbalanced : ∀ n, Grammar.groupsAfter n ts = n)
    (h : ∀ outer, ReadsTo groups .start outer .expression ts t) :
    ReadsTo groups level outer .atom (token :: ts ++ [closing]) t := by
  by_cases hlt : groups + outer.length < maxDepth
  · -- The group is entered, and its level is folded at the closing bracket.
    have hdeep : tooDeep? (groups + outer.length) (token :: ts ++ [closing]) =
        tooDeep? (groups + (outer.length + 1)) ts := by
      rw [List.cons_append, tooDeep?, if_neg (fun h => Nat.not_le.mpr hlt h.2),
        Grammar.groupsBehind_of_opener hopening, Grammar.tooDeep?_append, hbalanced,
        Grammar.tooDeep?_cons_of_ne (by simp [hclosing]), tooDeep?, Option.or_none, Nat.add_assoc]
    have hrest : read groups ⟨level, outer⟩ (token :: ts ++ [closing]) =
        read groups ⟨.start, (level, token.offset) :: outer⟩ (ts ++ [closing]) :=
      read_cons_of_some (next_of_opener hopening hlt)
    cases h ((level, token.offset) :: outer) with
    | tooManyGroups stuck hstuck hread =>
      exact .tooManyGroups stuck (hdeep.trans hstuck) (hrest.trans (read_append_of_error hread _))
    | tooTall offset hlt hread =>
      exact .tooTall offset hlt (hrest.trans (read_append_of_error hread _))
    | done p grown hnone hforms hexact hlow hpieces hread =>
      have hclose := hrest.trans (read_append_of_ok hread [closing])
      have hfold : grown.fold = p.fold := by
        rw [Level.fold, hpieces, Level.pieces_start, List.append_nil, List.reverse_reverse]
      have hnext : next groups ⟨grown, (level, token.offset) :: outer⟩ closing =
          p.fold >>= fun group =>
            .ok (some ⟨level.push (.operand ⟨group, token.offset⟩), outer⟩) := by
        rw [next_of_closer hclosing, hfold]
      by_cases hle : t.height ≤ maxDepth
      · rw [Phrase.fold_of_forms hexact hforms hle, ok_bind] at hnext
        rw [read_cons_of_some hnext] at hclose
        refine .done [.operand ⟨⟨t, t.height⟩, token.offset⟩] _ (hdeep.trans hnone) (.operand _)
          ?_ ?_ rfl hclose
        · exact Phrase.exact_operand_cons.mpr ⟨rfl, Phrase.exact_nil⟩
        · exact Phrase.low_operand_cons.mpr ⟨hle, Phrase.low_nil⟩
      · obtain ⟨offset, hfails⟩ :=
          Phrase.fold_of_forms_of_lt hexact hlow hforms (Nat.not_le.mp hle)
        rw [hfails, error_bind] at hnext
        rw [read_cons_of_error hnext] at hclose
        exact .tooTall offset (Nat.not_le.mp hle) hclose
  · refine .tooManyGroups token ?_ ?_
    · rw [List.cons_append, tooDeep?, if_pos ⟨hopening, Nat.not_lt.mp hlt⟩]
    · exact read_cons_of_error (next_of_opener_of_le hopening (Nat.not_lt.mp hlt))

end Nesting

/-- The tokens of a derivation are read to their end, unless a limit is in the way. -/
theorem Grammar.Derives.readsTo {category : Category} {ts : List Token} {t : Tree Atom}
    (h : Derives category ts t) (groups : Nat) (level : Level) (outer : List (Level × Nat)) :
    Nesting.ReadsTo groups level outer category ts t := by
  induction h generalizing level outer with
  | empty =>
    exact .done [] level rfl (.inl ⟨rfl, rfl⟩) Phrase.exact_nil Phrase.low_nil rfl rfl
  | chain _ ih =>
    refine (ih level outer).mono ?_
    intro phrase hforms
    exact .inr hforms
  | @operand c _ _ _ ih =>
    refine (ih level outer).mono ?_
    intro phrase hforms
    rw [Phrase.forms_chain]
    exact .one hforms
  | join hl hop _ ihl ihr =>
    exact .join hl.groupsAfter_eq hop (fun level => ihl level outer) (fun level => ihr level outer)
  | atom _ ih =>
    refine (ih level outer).mono ?_
    rintro phrase ⟨o⟩
    exact .operand o
  | not hop _ ih => exact .not hop fun level => ih level outer
  | leaf hword hliterals => exact .leaf hword hliterals
  | group hopening hclosing hinner ih =>
    exact .group hopening hclosing hinner.groupsAfter_eq fun outer => ih .start outer

/-! ## Whole expressions -/

/-- The tokens of an expression parse to its tree, or one of the two limits is in the way. -/
theorem Grammar.Derives.parse_cases {ts : List Token} {t : Tree Atom}
    (h : Derives .expression ts t) :
    (tooDeep? 0 ts = none ∧ t.height ≤ maxDepth ∧ parse ts = .ok t) ∨
      (∃ token, tooDeep? 0 ts = some token ∧ parse ts = .error (.groupsTooDeep token.offset)) ∨
      (maxDepth < t.height ∧ ∃ offset, parse ts = .error (.operatorsTooDeep offset)) := by
  unfold parse readLevel
  cases h.readsTo 0 .start [] with
  | tooManyGroups token hdeep hread =>
    exact .inr (.inl ⟨token, hdeep, by rw [Nesting.start, hread]; rfl⟩)
  | tooTall offset hlt hread => exact .inr (.inr ⟨hlt, offset, by rw [Nesting.start, hread]; rfl⟩)
  | done p grown hnone hforms hexact hlow hpieces hread =>
    have hfold : grown.fold = p.fold := by
      rw [Level.fold, hpieces, Level.pieces_start, List.append_nil, List.reverse_reverse]
    rw [Nesting.start, hread]
    simp only [ok_bind, Nesting.close, hfold]
    by_cases hle : t.height ≤ maxDepth
    · rw [Phrase.fold_of_forms hexact hforms hle]
      exact .inl ⟨hnone, hle, rfl⟩
    · obtain ⟨offset, hfails⟩ :=
        Phrase.fold_of_forms_of_lt hexact hlow hforms (Nat.not_le.mp hle)
      rw [hfails]
      exact .inr (.inr ⟨Nat.not_le.mp hle, offset, rfl⟩)

end PredicateExpr
