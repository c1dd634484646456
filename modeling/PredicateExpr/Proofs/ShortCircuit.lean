import PredicateExpr.Evaluation.Account
import PredicateExpr.Proofs.Evaluation

/-!
# Which callbacks an evaluation calls

Callbacks change the state that later ones look at, so that the values of the operands, and with
them the choice of what to leave out, come about only as the evaluation goes on. Nevertheless the
values tell all the rest: the calls and the state afterwards can be read off them, leaf by leaf
along the list of leaves. `Tree.exists_accounts` says that there are such values, and
`Tree.Accounts.eq_evaluate` that they determine the outcome; `Tree.Accounts.takesPart` finds the
evaluation of each operand in that of the whole expression.

All three are inductions on the expression. They rest on one lemma for each constructor on accounts
(`Tree.accounts_not_iff` and so on) and one on evaluations, which have the same cases.
-/

namespace PredicateExpr

/-! ## Connectives that omit their right operand -/

namespace Connective

/-- Such a connective has the value of its left operand. -/
theorem combine_of_omitsRight {c : Connective} {a : Bool} (h : c.OmitsRight a) (b : Bool) :
    c.combine a b = a := by
  rcases h with ⟨rfl, rfl⟩ | ⟨rfl, rfl⟩
  · rfl
  · rfl

/-- The left operand settles the value where the right one is omitted. -/
theorem settled?_of_omitsRight {c : Connective} {a : Bool} (h : c.OmitsRight a) :
    c.settled? a = some a := by
  rcases h with ⟨rfl, rfl⟩ | ⟨rfl, rfl⟩
  · rfl
  · rfl

/-- The left operand settles nothing where the right one is not omitted. -/
theorem settled?_of_not_omitsRight {c : Connective} {a : Bool} (h : ¬ c.OmitsRight a) :
    c.settled? a = none := by
  cases c with
  | xor => rfl
  | and =>
    cases a with
    | false => exact absurd (.inl ⟨rfl, rfl⟩) h
    | true => rfl
  | or =>
    cases a with
    | false => rfl
    | true => exact absurd (.inr ⟨rfl, rfl⟩) h

end Connective

namespace Tree

variable {α σ : Type} {values : Path → Bool} {p : Path}

/-! ## Omitted operands -/

/-- The whole expression is never omitted. -/
theorem not_omitted_nil (t : Tree α) (values : Path → Bool) : ¬ t.Omitted values [] := by
  rintro ⟨q, c, l, r, -, -, hprefix⟩
  exact List.append_ne_nil_of_right_ne_nil q (List.cons_ne_nil _ _) (List.prefix_nil.mp hprefix)

/-- What lies in an operand is omitted with it, or within it. -/
theorem omitted_cons_iff {t u : Tree α} {turn : Turn} (hat : ∀ q, t.at? (turn :: q) = u.at? q) :
    t.Omitted values (turn :: p) ↔
      (turn = .right ∧ ∃ c l r, t = join c l r ∧ c.OmitsRight (values [.left])) ∨
        u.Omitted (within [turn] values) p := by
  constructor
  · rintro ⟨_ | ⟨turn', q⟩, c, l, r, hjoin, homits, hprefix⟩
    · rw [at?_nil] at hjoin
      have hright : Turn.right = turn := (List.cons_prefix_cons.mp hprefix).1
      exact .inl ⟨hright.symm, c, l, r, Option.some.inj hjoin, homits⟩
    · obtain ⟨rfl, hrest⟩ := List.cons_prefix_cons.mp hprefix
      exact .inr ⟨q, c, l, r, (hat q).symm.trans hjoin, homits, hrest⟩
  · rintro (⟨rfl, c, l, r, rfl, homits⟩ | ⟨q, c, l, r, hjoin, homits, hprefix⟩)
    · exact ⟨[], c, l, r, rfl, homits, List.prefix_append [Turn.right] p⟩
    · exact ⟨turn :: q, c, l, r, (hat q).trans hjoin, homits,
        List.cons_prefix_cons.mpr ⟨rfl, hprefix⟩⟩

/-- A part of a negated operand is omitted where it is omitted in the operand. -/
theorem omitted_operand_iff {t : Tree α} :
    (not t).Omitted values (.operand :: p) ↔ t.Omitted (within [.operand] values) p := by
  rw [omitted_cons_iff fun _ => rfl]
  simp

/-- A part of a left operand is omitted where it is omitted in that operand. -/
theorem omitted_left_iff {c : Connective} {l r : Tree α} :
    (join c l r).Omitted values (.left :: p) ↔ l.Omitted (within [.left] values) p := by
  rw [omitted_cons_iff fun _ => rfl]
  simp

/-- A part of a right operand is omitted with the whole operand, or within it. -/
theorem omitted_right_iff {c : Connective} {l r : Tree α} :
    (join c l r).Omitted values (.right :: p) ↔
      c.OmitsRight (values [.left]) ∨ r.Omitted (within [.right] values) p := by
  rw [omitted_cons_iff fun _ => rfl]
  simp

/-! ## Operands that are reached -/

/-- At the root the whole expression is reached. -/
theorem reached_nil_iff {t s : Tree α} : t.Reached values [] s ↔ s = t := by
  constructor
  · rintro ⟨hat, -⟩
    rw [at?_nil] at hat
    exact (Option.some.inj hat).symm
  · rintro rfl
    exact ⟨at?_nil s, not_omitted_nil s values⟩

/-- A part of a negated operand is reached in the negation where it is reached in the operand. -/
theorem reached_operand_iff {t s : Tree α} :
    (not t).Reached values (.operand :: p) s ↔ t.Reached (within [.operand] values) p s :=
  and_congr Iff.rfl (not_congr omitted_operand_iff)

/-- A part of a left operand is reached where it is reached in that operand. -/
theorem reached_left_iff {c : Connective} {l r s : Tree α} :
    (join c l r).Reached values (.left :: p) s ↔ l.Reached (within [.left] values) p s :=
  and_congr Iff.rfl (not_congr omitted_left_iff)

/-- A part of a right operand is reached where it is reached in that operand and the operand is not
omitted. -/
theorem reached_right_iff {c : Connective} {l r s : Tree α} :
    (join c l r).Reached values (.right :: p) s ↔
      ¬ c.OmitsRight (values [.left]) ∧ r.Reached (within [.right] values) p s := by
  rw [Reached, Reached, omitted_right_iff, not_or]
  exact and_left_comm

/-! ## Values of operands -/

/-- What an operand says of its values, it says as a part of the whole expression. -/
theorem hasValue_within {q : Path} {s : Tree (Leaf σ)} :
    HasValue (within p values) q s ↔ HasValue values (p ++ q) s := by
  cases s with
  | empty => rfl
  | leaf label => rfl
  | not s => simp only [HasValue, within, List.append_assoc]
  | join c l r => simp only [HasValue, within, List.append_assoc]

/-- An expression without operands has the one value at its root. -/
theorem hasValues_iff_of_at?_cons {t : Tree (Leaf σ)} (h : ∀ turn p, t.at? (turn :: p) = none) :
    t.HasValues values ↔ HasValue values [] t := by
  constructor
  · intro hvalues
    exact hvalues [] t (reached_nil_iff.mpr rfl)
  · rintro hroot (_ | ⟨turn, p⟩) s hs
    · rw [reached_nil_iff.mp hs]
      exact hroot
    · cases (h turn p).symm.trans hs.1

theorem hasValues_empty_iff : (empty : Tree (Leaf σ)).HasValues values ↔ values [] = true :=
  hasValues_iff_of_at?_cons at?_empty_cons

/-- A leaf is true if it is not resolved. -/
theorem hasValues_leaf_iff {label : Leaf σ} :
    (leaf label).HasValues values ↔ (label.resolved = false → values [] = true) :=
  hasValues_iff_of_at?_cons (at?_leaf_cons label)

/-- A negation inverts the value of its operand. -/
theorem hasValues_not_iff {t : Tree (Leaf σ)} :
    (not t).HasValues values ↔
      (values [] = !values [.operand]) ∧ t.HasValues (within [.operand] values) := by
  constructor
  · intro h
    refine ⟨h [] t.not (reached_nil_iff.mpr rfl), ?_⟩
    intro p s hs
    exact hasValue_within.mpr (h (.operand :: p) s (reached_operand_iff.mpr hs))
  · rintro ⟨hvalue, h⟩ (_ | ⟨_ | _ | _, p⟩) s hs
    · rw [reached_nil_iff.mp hs]
      exact hvalue
    · exact hasValue_within.mp (h p s (reached_operand_iff.mp hs))
    · cases hs.1
    · cases hs.1

/-- The values of a joined pair are those of its operands, the right one only if it is not omitted,
with a value at the root that fits them. -/
theorem hasValues_join_iff {c : Connective} {l r : Tree (Leaf σ)} :
    (join c l r).HasValues values ↔
      HasValue values [] (join c l r) ∧ l.HasValues (within [.left] values) ∧
        (¬ c.OmitsRight (values [.left]) → r.HasValues (within [.right] values)) := by
  constructor
  · intro h
    refine ⟨h [] (join c l r) (reached_nil_iff.mpr rfl), ?_, ?_⟩
    · intro p s hs
      exact hasValue_within.mpr (h (.left :: p) s (reached_left_iff.mpr hs))
    · intro homits p s hs
      exact hasValue_within.mpr (h (.right :: p) s (reached_right_iff.mpr ⟨homits, hs⟩))
  · rintro ⟨hvalue, hl, hr⟩ (_ | ⟨_ | _ | _, p⟩) s hs
    · rw [reached_nil_iff.mp hs]
      exact hvalue
    · cases hs.1
    · exact hasValue_within.mp (hl p s (reached_left_iff.mp hs))
    · obtain ⟨homits, hs⟩ := reached_right_iff.mp hs
      exact hasValue_within.mp (hr homits p s hs)

/-! ## Leaves that are called -/

/-- A leaf is called when it is resolved. -/
theorem called_leaf (label : Leaf σ) (values : Path → Bool) :
    (leaf label).called values = if label.resolved then [([], label)] else [] := by
  rw [called, leavesByPath]
  cases hresolved : label.resolved with
  | false => simp [hresolved]
  | true => simp [hresolved, not_omitted_nil]

/-- The called leaves of an operand, among those of an expression that omits no more of it than it
omits itself. -/
theorem filter_map_under {t u : Tree (Leaf σ)} {turn : Turn}
    (h : ∀ p, t.Omitted values (turn :: p) ↔ u.Omitted (within [turn] values) p) :
    ((u.leavesByPath.map (under [turn])).filter fun x => x.2.resolved ∧ ¬ t.Omitted values x.1) =
      (u.called (within [turn] values)).map (under [turn]) := by
  rw [called, List.filter_map]
  congr 1
  refine List.filter_congr fun x _ => decide_eq_decide.mpr ?_
  exact and_congr Iff.rfl (not_congr (h x.1))

/-- A negation calls the leaves that its operand calls. -/
theorem called_not (t : Tree (Leaf σ)) (values : Path → Bool) :
    (not t).called values = (t.called (within [.operand] values)).map (under [.operand]) :=
  filter_map_under fun _ => omitted_operand_iff

/-- The right operand of a connective has no called leaves if it is omitted. -/
theorem called_join_of_omits {c : Connective} (homits : c.OmitsRight (values [.left]))
    (l r : Tree (Leaf σ)) :
    (join c l r).called values = (l.called (within [.left] values)).map (under [.left]) := by
  have hright : ((r.leavesByPath.map (under [.right])).filter
      fun x => x.2.resolved ∧ ¬ (join c l r).Omitted values x.1) = [] := by
    rw [List.filter_map, List.map_eq_nil_iff, List.filter_eq_nil_iff]
    intro x _ hx
    exact (of_decide_eq_true hx).2 (omitted_right_iff.mpr (.inl homits))
  rw [called, leavesByPath, List.filter_append, hright, List.append_nil]
  exact filter_map_under fun _ => omitted_left_iff

/-- A connective that omits nothing calls the leaves of its left operand, and then those of its
right one. -/
theorem called_join_of_not_omits {c : Connective} (homits : ¬ c.OmitsRight (values [.left]))
    (l r : Tree (Leaf σ)) :
    (join c l r).called values =
      (l.called (within [.left] values)).map (under [.left]) ++
        (r.called (within [.right] values)).map (under [.right]) := by
  rw [called, leavesByPath, List.filter_append]
  have hright : ∀ p, (join c l r).Omitted values (.right :: p) ↔
      r.Omitted (within [.right] values) p :=
    fun _ => omitted_right_iff.trans (or_iff_right homits)
  rw [filter_map_under fun _ => omitted_left_iff, filter_map_under hright]

/-- A leaf has the same answer as a part of an operand and as a part of the whole expression. -/
theorem map_answer_under (values : Path → Bool) (p : Path) (xs : List (Path × Leaf σ)) :
    (xs.map (under p)).map (answer values) = xs.map (answer (within p values)) :=
  List.map_map

/-- A leaf has the same atom as a part of an operand and as a part of the whole expression. -/
theorem map_atom_under (p : Path) (xs : List (Path × Leaf σ)) :
    ((xs.map (under p)).map fun x => x.2.atom) = xs.map fun x => x.2.atom :=
  List.map_map

end Tree

variable {σ : Type}

/-- Callbacks are called one after the other. -/
theorem calls_append_iff {state later : σ} {xs ys : List (Leaf σ × Bool)} :
    Calls state (xs ++ ys) later ↔ ∃ next, Calls state xs next ∧ Calls next ys later := by
  induction xs generalizing state with
  | nil =>
    constructor
    · intro h
      exact ⟨state, .nil, h⟩
    · rintro ⟨_, ⟨⟩, h⟩
      exact h
  | cons x xs ih =>
    constructor
    · rintro (_ | ⟨hcallback, hanswer, hothers⟩)
      obtain ⟨next, hxs, hys⟩ := ih.mp hothers
      exact ⟨next, .cons hcallback hanswer hxs, hys⟩
    · rintro ⟨next, _ | ⟨hcallback, hanswer, hxs⟩, hys⟩
      exact .cons hcallback hanswer (ih.mpr ⟨next, hxs, hys⟩)

namespace Tree

variable {values : Path → Bool} {state : σ} {value : Bool} {run : Run σ}

/-! ## Accounts, constructor by constructor -/

/-- An expression that is true without any call. -/
theorem accounts_iff_of_called_eq_nil {t : Tree (Leaf σ)} (hcalled : t.called values = [])
    (hoperands : t.HasValues values ↔ values [] = true) :
    t.Accounts values state (value, run) ↔
      values [] = value ∧ value = true ∧ run = ⟨state, []⟩ := by
  constructor
  · rintro ⟨h, hvalue, hcalls, hlater⟩
    rw [hcalled] at hcalls hlater
    obtain ⟨⟩ := hlater
    exact ⟨hvalue.symm, hvalue.trans (hoperands.mp h), congrArg (Run.mk _) hcalls⟩
  · rintro ⟨hvalue, htrue, rfl⟩
    refine ⟨hoperands.mpr (hvalue.trans htrue), hvalue.symm, ?_, ?_⟩
    · rw [hcalled]
      rfl
    · rw [hcalled]
      exact .nil

theorem accounts_empty_iff :
    (empty : Tree (Leaf σ)).Accounts values state (value, run) ↔
      values [] = value ∧ value = true ∧ run = ⟨state, []⟩ :=
  accounts_iff_of_called_eq_nil rfl hasValues_empty_iff

/-- A leaf without a callback is true without a call. -/
theorem accounts_leaf_iff_of_none {label : Leaf σ} (hcallback : label.callback? = none) :
    (leaf label).Accounts values state (value, run) ↔
      values [] = value ∧ value = true ∧ run = ⟨state, []⟩ := by
  have hresolved : label.resolved = false := by rw [Leaf.resolved, hcallback]; rfl
  refine accounts_iff_of_called_eq_nil ?_ ?_
  · rw [called_leaf, hresolved]
    rfl
  · rw [hasValues_leaf_iff]
    exact imp_iff_right hresolved

/-- A leaf with a callback is accounted for by the one call of it. -/
theorem accounts_leaf_iff_of_some {label : Leaf σ} {callback : Callback σ}
    (hcallback : label.callback? = some callback) :
    (leaf label).Accounts values state (value, run) ↔
      values [] = value ∧ callback state = (value, run.state) ∧ run.calls = [label.atom] := by
  have hresolved : label.resolved = true := by rw [Leaf.resolved, hcallback]; rfl
  have hcalled : (leaf label).called values = [([], label)] := by
    rw [called_leaf, hresolved]
    rfl
  constructor
  · rintro ⟨-, hvalue, hcalls, hlater⟩
    rw [hcalled] at hcalls hlater
    obtain _ | ⟨hsame, hanswer, ⟨⟩⟩ := hlater
    obtain rfl := Option.some.inj (hcallback.symm.trans hsame)
    exact ⟨hvalue.symm, hanswer.trans (congrArg (·, run.state) hvalue.symm), hcalls⟩
  · rintro ⟨hvalue, hanswer, hcalls⟩
    refine ⟨hasValues_leaf_iff.mpr ?_, hvalue.symm, ?_, ?_⟩
    · rw [hresolved]
      intro hfalse
      cases hfalse
    · rw [hcalled]
      exact hcalls
    · rw [hcalled]
      exact .cons hcallback (hanswer.trans (congrArg (·, run.state) hvalue.symm)) .nil

/-- A run that consists of the calls of an operand. -/
theorem calls_iff_of_called {t u : Tree (Leaf σ)} {turn : Turn} (state : σ) (run : Run σ)
    (hcalled : t.called values = (u.called (within [turn] values)).map (under [turn])) :
    ((run.calls = (t.called values).map fun x => x.2.atom) ∧
        Calls state ((t.called values).map (answer values)) run.state) ↔
      (run.calls = (u.called (within [turn] values)).map fun x => x.2.atom) ∧
        Calls state ((u.called (within [turn] values)).map (answer (within [turn] values)))
          run.state := by
  rw [hcalled, map_atom_under, map_answer_under]

/-- A negation is accounted for as its operand is, with the other value. -/
theorem accounts_not_iff {t : Tree (Leaf σ)} :
    (not t).Accounts values state (value, run) ↔
      values [] = value ∧ t.Accounts (within [.operand] values) state (!value, run) := by
  have hrun := calls_iff_of_called state run (called_not t values)
  constructor
  · rintro ⟨hoperands, hvalue, hcalls, hlater⟩
    obtain ⟨hnot, hoperands⟩ := hasValues_not_iff.mp hoperands
    obtain ⟨hcalls, hlater⟩ := hrun.mp ⟨hcalls, hlater⟩
    have hoperand : (!value) = values [.operand] := by
      rw [show value = values [] from hvalue, hnot, Bool.not_not]
    exact ⟨hvalue.symm, hoperands, hoperand, hcalls, hlater⟩
  · rintro ⟨hvalue, hoperands, hoperand, hcalls, hlater⟩
    obtain ⟨hcalls, hlater⟩ := hrun.mpr ⟨hcalls, hlater⟩
    have hnot : values [] = !values [.operand] :=
      hvalue.trans (Bool.not_eq_eq_eq_not.mp hoperand)
    exact ⟨hasValues_not_iff.mpr ⟨hnot, hoperands⟩, hvalue.symm, hcalls, hlater⟩

variable {c : Connective} {l r : Tree (Leaf σ)}

/-- A connective that omits its right operand is accounted for as its left one is. -/
theorem accounts_join_iff_of_omits (homits : c.OmitsRight (values [.left])) :
    (join c l r).Accounts values state (value, run) ↔
      values [] = value ∧ l.Accounts (within [.left] values) state (value, run) := by
  have hrun := calls_iff_of_called state run (called_join_of_omits homits l r)
  have hjoin : HasValue values [] (join c l r) ↔ values [] = values [.left] := by
    constructor
    · intro h
      exact (h _ (.inl rfl)).trans (Connective.combine_of_omitsRight homits _)
    · intro h b _
      exact h.trans (Connective.combine_of_omitsRight homits b).symm
  constructor
  · rintro ⟨hoperands, hvalue, hcalls, hlater⟩
    obtain ⟨hroot, hleft, -⟩ := hasValues_join_iff.mp hoperands
    obtain ⟨hcalls, hlater⟩ := hrun.mp ⟨hcalls, hlater⟩
    exact ⟨hvalue.symm, hleft, hvalue.trans (hjoin.mp hroot), hcalls, hlater⟩
  · rintro ⟨hvalue, hleft, hsame, hcalls, hlater⟩
    obtain ⟨hcalls, hlater⟩ := hrun.mpr ⟨hcalls, hlater⟩
    have hroot := hjoin.mpr (hvalue.trans hsame)
    exact ⟨hasValues_join_iff.mpr ⟨hroot, hleft, absurd homits⟩, hvalue.symm, hcalls, hlater⟩

/-- A connective that omits nothing is accounted for by its left operand, and by its right one in
the state that the left one leaves. -/
theorem accounts_join_iff_of_not_omits (homits : ¬ c.OmitsRight (values [.left])) :
    (join c l r).Accounts values state (value, run) ↔
      values [] = value ∧ ∃ a b next first second,
        value = c.combine a b ∧ run.calls = first ++ second ∧
          l.Accounts (within [.left] values) state (a, ⟨next, first⟩) ∧
            r.Accounts (within [.right] values) next (b, ⟨run.state, second⟩) := by
  have hcalled := called_join_of_not_omits homits l r
  have hjoin : HasValue values [] (join c l r) ↔
      values [] = c.combine (values [.left]) (values [.right]) := by
    constructor
    · intro h
      exact h _ (.inl rfl)
    · rintro h b (rfl | hb)
      · exact h
      · exact absurd hb homits
  constructor
  · rintro ⟨hoperands, hvalue, hcalls, hlater⟩
    obtain ⟨hroot, hleft, hright⟩ := hasValues_join_iff.mp hoperands
    rw [hcalled, List.map_append, map_atom_under, map_atom_under] at hcalls
    rw [hcalled, List.map_append, map_answer_under, map_answer_under] at hlater
    obtain ⟨next, hfirst, hsecond⟩ := calls_append_iff.mp hlater
    exact ⟨hvalue.symm, _, _, next, _, _, hvalue.trans (hjoin.mp hroot), hcalls,
      ⟨hleft, rfl, rfl, hfirst⟩, ⟨hright homits, rfl, rfl, hsecond⟩⟩
  · rintro ⟨hvalue, a, b, next, first, second, hcombine, hcalls, hl, hr⟩
    have hroot : values [] = c.combine (values [.left]) (values [.right]) := by
      rw [hvalue, hcombine, show a = values [.left] from hl.value,
        show b = values [.right] from hr.value]
    refine ⟨hasValues_join_iff.mpr ⟨hjoin.mpr hroot, hl.operands, fun _ => hr.operands⟩,
      hvalue.symm, ?_, ?_⟩
    · rw [hcalled, List.map_append, map_atom_under, map_atom_under]
      exact hcalls.trans (congrArg₂ (· ++ ·) hl.calls hr.calls)
    · rw [hcalled, List.map_append, map_answer_under, map_answer_under]
      exact calls_append_iff.mpr ⟨next, hl.later, hr.later⟩

/-! ## Evaluations, constructor by constructor -/

/-- A leaf without a callback is true, and no call is made. -/
theorem evaluate_leaf_of_none {label : Leaf σ} (hcallback : label.callback? = none) (state : σ) :
    (leaf label).evaluate Leaf.ask ⟨state, []⟩ = (true, ⟨state, []⟩) := by
  rw [evaluate, Leaf.ask, hcallback]
  rfl

/-- A leaf with a callback has its answer, and its call is recorded. -/
theorem evaluate_leaf_of_some {label : Leaf σ} {callback : Callback σ}
    (hcallback : label.callback? = some callback) (state : σ) :
    (leaf label).evaluate Leaf.ask ⟨state, []⟩ =
      ((callback state).1, ⟨(callback state).2, [label.atom]⟩) := by
  rw [evaluate, Leaf.ask, hcallback]
  rfl

/-- A negation evaluates its operand and inverts the value. -/
theorem evaluate_not {t : Tree (Leaf σ)} {start : Run σ}
    (h : t.evaluate Leaf.ask start = (value, run)) :
    (not t).evaluate Leaf.ask start = (!value, run) := by
  change (!(t.evaluate Leaf.ask start).1, (t.evaluate Leaf.ask start).2) = _
  rw [h]

/-- A connective that omits its right operand does what the left one does. -/
theorem evaluate_join_of_omits {start : Run σ} (h : l.evaluate Leaf.ask start = (value, run))
    (homits : c.OmitsRight value) : (join c l r).evaluate Leaf.ask start = (value, run) := by
  rw [evaluate, Connective.combineM_run, h, Connective.settled?_of_omitsRight homits]

/-- Otherwise the right operand is evaluated where the left one ended. -/
theorem evaluate_join_of_not_omits {a b : Bool} {next later : σ} {first second : List Atom}
    (hl : l.evaluate Leaf.ask ⟨state, []⟩ = (a, ⟨next, first⟩)) (homits : ¬ c.OmitsRight a)
    (hr : r.evaluate Leaf.ask ⟨next, []⟩ = (b, ⟨later, second⟩)) :
    (join c l r).evaluate Leaf.ask ⟨state, []⟩ = (c.combine a b, ⟨later, first ++ second⟩) := by
  rw [evaluate, Connective.combineM_run, hl, Connective.settled?_of_not_omitsRight homits]
  simp only [AddsCalls.evaluate r next first, hr]

/-! ## Evaluations and accounts -/

/-- Values for an expression, from values for its operands. -/
def assemble (value : Bool) (values : Turn → Path → Bool) : Path → Bool
  | [] => value
  | turn :: p => values turn p

/-- Every evaluation can be accounted for. -/
theorem exists_accounts (t : Tree (Leaf σ)) (state : σ) :
    ∃ values, t.Accounts values state (t.evaluate Leaf.ask ⟨state, []⟩) := by
  induction t generalizing state with
  | empty => exact ⟨fun _ => true, accounts_empty_iff.mpr ⟨rfl, rfl, rfl⟩⟩
  | leaf label =>
    cases hcallback : label.callback? with
    | none =>
      rw [evaluate_leaf_of_none hcallback]
      exact ⟨fun _ => true, (accounts_leaf_iff_of_none hcallback).mpr ⟨rfl, rfl, rfl⟩⟩
    | some callback =>
      rw [evaluate_leaf_of_some hcallback]
      exact ⟨fun _ => (callback state).1,
        (accounts_leaf_iff_of_some hcallback).mpr ⟨rfl, rfl, rfl⟩⟩
  | not t ih =>
    obtain ⟨values, h⟩ := ih state
    rcases hrun : t.evaluate Leaf.ask ⟨state, []⟩ with ⟨value, run⟩
    rw [hrun] at h
    rw [evaluate_not hrun]
    refine ⟨assemble (!value) fun _ => values, accounts_not_iff.mpr ⟨rfl, ?_⟩⟩
    rw [Bool.not_not]
    exact h
  | join c l r ihl ihr =>
    obtain ⟨left, hl⟩ := ihl state
    rcases hleft : l.evaluate Leaf.ask ⟨state, []⟩ with ⟨a, next, first⟩
    rw [hleft] at hl
    by_cases homits : c.OmitsRight a
    · rw [evaluate_join_of_omits hleft homits]
      have homits' : c.OmitsRight (left []) := hl.value ▸ homits
      exact ⟨assemble a fun _ => left, (accounts_join_iff_of_omits homits').mpr ⟨rfl, hl⟩⟩
    · obtain ⟨right, hr⟩ := ihr next
      rcases hright : r.evaluate Leaf.ask ⟨next, []⟩ with ⟨b, later, second⟩
      rw [hright] at hr
      rw [evaluate_join_of_not_omits hleft homits hright]
      have homits' : ¬ c.OmitsRight (left []) := hl.value ▸ homits
      refine ⟨assemble (c.combine a b) fun | .left => left | _ => right,
        (accounts_join_iff_of_not_omits homits').mpr ?_⟩
      exact ⟨rfl, a, b, next, first, second, rfl, rfl, hl, hr⟩

/-- Values that account for an outcome leave no other one possible. -/
theorem Accounts.eq_evaluate {t : Tree (Leaf σ)} {outcome : Bool × Run σ}
    (h : t.Accounts values state outcome) : outcome = t.evaluate Leaf.ask ⟨state, []⟩ := by
  induction t generalizing values state outcome with
  | empty =>
    obtain ⟨value, run⟩ := outcome
    obtain ⟨-, rfl, rfl⟩ := accounts_empty_iff.mp h
    rfl
  | leaf label =>
    obtain ⟨value, run⟩ := outcome
    cases hcallback : label.callback? with
    | none =>
      obtain ⟨-, rfl, rfl⟩ := (accounts_leaf_iff_of_none hcallback).mp h
      exact (evaluate_leaf_of_none hcallback state).symm
    | some callback =>
      obtain ⟨-, hanswer, hcalls⟩ := (accounts_leaf_iff_of_some hcallback).mp h
      rw [evaluate_leaf_of_some hcallback, hanswer, ← hcalls]
  | not t ih =>
    obtain ⟨value, run⟩ := outcome
    obtain ⟨-, h⟩ := accounts_not_iff.mp h
    rw [evaluate_not (ih h).symm, Bool.not_not]
  | join c l r ihl ihr =>
    obtain ⟨value, run⟩ := outcome
    by_cases homits : c.OmitsRight (values [.left])
    · obtain ⟨-, hl⟩ := (accounts_join_iff_of_omits homits).mp h
      have hvalue : value = values [.left] := hl.value
      rw [← hvalue] at homits
      exact (evaluate_join_of_omits (ihl hl).symm homits).symm
    · obtain ⟨-, a, b, next, first, second, rfl, hcalls, hl, hr⟩ :=
        (accounts_join_iff_of_not_omits homits).mp h
      have hvalue : a = values [.left] := hl.value
      rw [← hvalue] at homits
      rw [evaluate_join_of_not_omits (ihl hl).symm homits (ihr hr).symm, ← hcalls]

/-! ## Operands in an evaluation -/

/-- What takes part in the evaluation of an operand takes part in that of the whole expression. -/
theorem TakesPart.of_operand {t u s : Tree (Leaf σ)} {turn : Turn} {p : Path} {next : σ}
    (first last : List (Path × Leaf σ))
    (hcalled : t.called values =
      first ++ (u.called (within [turn] values)).map (under [turn]) ++ last)
    (hfirst : Calls state (first.map (answer values)) next)
    (h : u.TakesPart (within [turn] values) next p s) :
    t.TakesPart values state (turn :: p) s := by
  obtain ⟨before, behind, start, hwithin, hbefore, haccounts⟩ := h
  rw [within_within] at hwithin haccounts
  refine ⟨first ++ before.map (under [turn]), behind.map (under [turn]) ++ last, start, ?_, ?_,
    haccounts⟩
  · rw [hcalled, hwithin, List.map_append, List.map_append, List.map_map, under_comp_under]
    simp only [List.append_assoc]
    rfl
  · rw [List.map_append, map_answer_under]
    exact calls_append_iff.mpr ⟨next, hfirst, hbefore⟩

/-- Every operand that is reached takes part in the evaluation. -/
theorem Accounts.takesPart {t s : Tree (Leaf σ)} {p : Path} {outcome : Bool × Run σ}
    (h : t.Accounts values state outcome) (hs : t.Reached values p s) :
    t.TakesPart values state p s := by
  induction p generalizing t values state outcome with
  | nil =>
    obtain rfl := reached_nil_iff.mp hs
    have hcalled : s.called values = [] ++ (s.called (within [] values)).map (under []) ++ [] := by
      rw [within_nil, under_nil, List.map_id, List.nil_append, List.append_nil]
    exact ⟨[], [], state, hcalled, .nil, h.eq_evaluate ▸ h⟩
  | cons turn p ih =>
    obtain ⟨value, run⟩ := outcome
    cases t with
    | empty => cases (at?_empty_cons turn p).symm.trans hs.1
    | leaf label => cases (at?_leaf_cons label turn p).symm.trans hs.1
    | not t =>
      cases turn with
      | operand =>
        obtain ⟨-, h⟩ := accounts_not_iff.mp h
        have hcalled := (called_not t values).trans (List.append_nil _).symm
        exact .of_operand [] [] hcalled .nil (ih h (reached_operand_iff.mp hs))
      | left | right => cases hs.1
    | join c l r =>
      cases turn with
      | operand => cases hs.1
      | left =>
        have hs := reached_left_iff.mp hs
        by_cases homits : c.OmitsRight (values [.left])
        · obtain ⟨-, hl⟩ := (accounts_join_iff_of_omits homits).mp h
          have hcalled := (called_join_of_omits homits l r).trans (List.append_nil _).symm
          exact .of_operand [] [] hcalled .nil (ih hl hs)
        · obtain ⟨-, a, b, next, first, second, -, -, hl, -⟩ :=
            (accounts_join_iff_of_not_omits homits).mp h
          exact .of_operand [] _ (called_join_of_not_omits homits l r) .nil (ih hl hs)
      | right =>
        obtain ⟨homits, hs⟩ := reached_right_iff.mp hs
        obtain ⟨-, a, b, next, first, second, -, -, hl, hr⟩ :=
          (accounts_join_iff_of_not_omits homits).mp h
        have hcalled := (called_join_of_not_omits homits l r).trans (List.append_nil _).symm
        refine .of_operand _ [] hcalled ?_ (ih hr hs)
        rw [map_answer_under]
        exact hl.later

/-- An evaluation can be accounted for, and in one way only as far as its operands take part: each
of them has the value that it evaluates to in the state in which it is reached. The leaves that are
called are found along the list of all leaves, where no leaf stands twice. -/
theorem evaluate_accounts (t : Tree (Leaf σ)) (state : σ) :
    (t.leavesByPath.map Prod.snd = t.leaves ∧ (t.leavesByPath.map Prod.fst).Nodup ∧
      ∀ p label, (p, label) ∈ t.leavesByPath ↔ t.at? p = some (leaf label)) ∧
    (∃ values, t.Accounts values state (t.evaluate Leaf.ask ⟨state, []⟩)) ∧
    ∀ values outcome, t.Accounts values state outcome →
      outcome = t.evaluate Leaf.ask ⟨state, []⟩ ∧
        ∀ p s, t.Reached values p s → t.TakesPart values state p s := by
  have hleaves : ∀ p label, (p, label) ∈ t.leavesByPath ↔ t.at? p = some (leaf label) :=
    fun p label => mem_leavesByPath_iff
  refine ⟨⟨map_snd_leavesByPath t, nodup_leavesByPath t, hleaves⟩, exists_accounts t state, ?_⟩
  intro values outcome h
  exact ⟨h.eq_evaluate, fun p s hs => h.takesPart hs⟩

/-- A condition on a flag that its leaf `flip` inverts: the second leaf is omitted, the fourth one
not resolved. -/
def flips : Tree (Leaf Bool) :=
  let flip : Tree (Leaf Bool) := leaf ⟨⟨"flip", []⟩, some fun flag => (flag, !flag)⟩
  join .or (join .and flip (leaf ⟨⟨"never", []⟩, some fun _ => (true, true)⟩))
    (join .xor flip (leaf ⟨⟨"unknown", []⟩, none⟩))

/-- The flag is inverted twice, and what was omitted has left no trace. -/
theorem evaluate_accounts_of_flips :
    ∃ values, flips.Accounts values false (false, ⟨false, [⟨"flip", []⟩, ⟨"flip", []⟩]⟩) ∧
      flips.TakesPart values false [] flips := by
  obtain ⟨-, ⟨values, h⟩, hall⟩ := evaluate_accounts flips false
  exact ⟨values, h, (hall values _ h).2 [] flips (reached_nil_iff.mpr rfl)⟩

end Tree

end PredicateExpr
