import Mathlib.Tactic.Common
import PredicateExpr.Error.Place
import PredicateExpr.Proofs.Nesting.Soundness

/-!
# Where reading fails

Whatever is wrong with the tokens of an expression, the error points at the token that it is about
(`exists_pointsAt_of_parse`). While a phrase is folded, its operands grow together and keep the byte
of their first token, so that an operator, or an operand, can be traced back to its token at any
time: each pass turns operands of one category into operands of the next one
(`Phrase.accountsFor_passFrom`), or else fails at an entry that still stands for its tokens.
-/

namespace PredicateExpr

open Grammar (Category Derives Spells categoryBelow categoryOf significant)

/-! ## The ends of an operand -/

namespace Grammar

/-- What is derived by some tokens begins and ends as operands do. -/
theorem Derives.ends {category : Category} {ts : List Token} {t : Tree Atom}
    (h : Derives category ts t) :
    category = .expression ∧ ts = [] ∨
      (∃ first, ts.head? = some first ∧ first.BeginsOperand) ∧
        ∃ last, ts.getLast? = some last ∧ last.EndsOperand := by
  induction h with
  | empty => exact .inl ⟨rfl, rfl⟩
  | chain _ ih => exact .inr (ih.resolve_left fun hempty => nomatch hempty.1)
  | operand _ ih =>
    exact .inr (ih.resolve_left fun hempty => operandOf_ne_expression _ hempty.1)
  | join _ _ _ ihl ihr =>
    obtain ⟨⟨first, hfirst, hbegins⟩, _⟩ :=
      ihl.resolve_left fun hempty => operandOf_ne_expression _ hempty.1
    obtain ⟨_, ⟨last, hlast, hends⟩⟩ := ihr.resolve_left fun hempty => nomatch hempty.1
    refine .inr ⟨⟨first, ?_, hbegins⟩, ⟨last, ?_, hends⟩⟩
    · rw [List.head?_append, hfirst, Option.some_or]
    · rw [List.getLast?_append, List.getLast?_cons, hlast]
      rfl
  | atom _ ih => exact .inr (ih.resolve_left fun hempty => nomatch hempty.1)
  | @not token _ _ hop _ ih =>
    obtain ⟨_, ⟨last, hlast, hends⟩⟩ := ih.resolve_left fun hempty => nomatch hempty.1
    refine .inr ⟨⟨token, rfl, .inr (.inr hop)⟩, ⟨last, ?_, hends⟩⟩
    rw [List.getLast?_cons, hlast]
    rfl
  | @leaf word literals hword hliterals =>
    refine .inr ⟨⟨word, rfl, .inl hword⟩, ?_⟩
    rcases List.eq_nil_or_concat literals with rfl | ⟨others, last, rfl⟩
    · exact ⟨word, rfl, .inl hword⟩
    · refine ⟨last, ?_, .inr (.inl (hliterals last (by simp)))⟩
      rw [List.concat_eq_append, ← List.cons_append, List.getLast?_concat]
  | @group opening closing _ _ hopening hclosing _ _ =>
    refine .inr ⟨⟨opening, rfl, .inr (.inl hopening)⟩, ⟨closing, ?_, .inr (.inr hclosing)⟩⟩
    rw [List.getLast?_concat]

/-- The first token of a derivation begins an operand. -/
theorem Derives.beginsOperand {category : Category} {first : Token} {others : List Token}
    {t : Tree Atom} (h : Derives category (first :: others) t) : first.BeginsOperand := by
  obtain ⟨_, hnil⟩ | ⟨⟨_, hfirst, hbegins⟩, _⟩ := h.ends
  · cases hnil
  · cases hfirst
    exact hbegins

/-- The last token of a derivation ends an operand. -/
theorem Derives.endsOperand {category : Category} {others : List Token} {last : Token}
    {t : Tree Atom} (h : Derives category (others ++ [last]) t) : last.EndsOperand := by
  obtain ⟨_, hnil⟩ | ⟨_, ⟨_, hlast, hends⟩⟩ := h.ends
  · simp at hnil
  · rw [List.getLast?_concat] at hlast
    cases hlast
    exact hends

end Grammar

/-! ## One pass -/

namespace Piece

/-- An operand of one category is one of a wider category. -/
theorem Covers.mono {category category' : Category} {piece : Piece} {ts : List Token}
    (hcategory : ∀ {ts t}, Derives category ts t → Derives category' ts t)
    (h : piece.Covers category ts) : piece.Covers category' ts := by
  cases h with
  | operator hop => exact .operator hop
  | operand hderives hoffset hexact hle => exact .operand (hcategory hderives) hoffset hexact hle

end Piece

namespace Phrase

variable {category : Category} {ts us vs : List Token}

/-- Of entries in reverse order, the first one stands for the last tokens. -/
theorem Covers.of_reverse_cons {piece : Piece} {ahead : List Piece}
    (h : Covers category (piece :: ahead).reverse ts) :
    ∃ us vs, ts = us ++ vs ∧ Covers category ahead.reverse us ∧ piece.Covers category vs := by
  rw [List.reverse_cons] at h
  obtain ⟨us, vs, rfl, hahead, hlast⟩ := h.split
  cases hlast with
  | cons hpiece hnil =>
    cases hnil
    exact ⟨us, _, rfl, hahead, by rwa [List.append_nil]⟩

/-- An entry that a pass leaves as it is goes from those ahead to those passed. -/
theorem Covers.pass_over {op : Operator} {piece : Piece} {ahead : List Piece} {passed : Phrase}
    (hahead : Covers (categoryBelow op) (piece :: ahead).reverse us)
    (hpassed : Covers (categoryOf op) passed vs) :
    ∃ us' ts, us = us' ++ ts ∧ Covers (categoryBelow op) ahead.reverse us' ∧
      Covers (categoryOf op) (piece :: passed) (ts ++ vs) := by
  obtain ⟨us', ts, rfl, hahead, hpiece⟩ := hahead.of_reverse_cons
  exact ⟨us', ts, rfl, hahead, .cons (hpiece.mono Derives.toCategoryOf) hpassed⟩

/-- An outcome that accounts for tokens: a phrase that stands for them, or an error that points at
one of them. -/
def AccountsFor (category : Category) (ts : List Token) : Except CompileError Phrase → Prop
  | .ok p => Covers category p ts
  | .error e => ∃ token, e.PointsAt ts token

/-- Where a step accounts for the tokens, and a later step does for every phrase that stands for
them, both together do: an error of the first step is the error of both. -/
theorem AccountsFor.bind {category' : Category} {x : Except CompileError Phrase}
    {f : Phrase → Except CompileError Phrase} (hx : AccountsFor category ts x)
    (hf : ∀ p, Covers category p ts → AccountsFor category' ts (f p)) :
    AccountsFor category' ts (x >>= f) := by
  cases x with
  | error e => exact hx
  | ok p => exact hf p hx

/-- An operand that is not accepted begins with the token at which it is refused. -/
theorem accountsFor_accept_bind {category' : Category} {o : Operand} {first : Token}
    {others : List Token} {f : Operand → Except CompileError Phrase}
    (hwithin : first :: others <:+: ts) (hderives : Derives category' (first :: others) o.tree)
    (hoffset : o.offset = first.offset) (hexact : o.Exact)
    (hf : Piece.Covers category' (.operand o) (first :: others) → AccountsFor category ts (f o)) :
    AccountsFor category ts (o.accept >>= f) := by
  by_cases hle : o.height ≤ maxDepth
  · rw [Operand.accept_of_le hle, ok_bind]
    exact hf (.operand hderives hoffset hexact hle)
  · have hlt : maxDepth < o.tree.height := by
      rw [← hexact]
      exact Nat.not_le.mp hle
    rw [Operand.accept_of_lt (Nat.not_le.mp hle), error_bind, hoffset]
    exact ⟨first, .operatorsTooDeep hwithin hderives.toExpression hlt hderives.beginsOperand⟩

/-- A pass keeps account of the tokens. The entries ahead are below the operator of the pass, and
those passed have been given to it as far as it takes them. -/
theorem accountsFor_passFrom {op : Operator} {ahead : List Piece} {passed : Phrase}
    (hahead : Covers (categoryBelow op) ahead.reverse us)
    (hpassed : Covers (categoryOf op) passed vs) :
    AccountsFor (categoryOf op) (us ++ vs) (passFrom op ahead passed) := by
  fun_induction passFrom op ahead passed generalizing us vs with
  | case1 passed =>
    cases hahead
    exact hpassed
  | case2 passed ahead o ih =>
    obtain ⟨us, ts, rfl, hahead, hpassed⟩ := hahead.pass_over hpassed
    rw [List.append_assoc]
    exact ih hahead hpassed
  | case3 passed ahead other offset hne ih =>
    obtain ⟨us, ts, rfl, hahead, hpassed⟩ := hahead.pass_over hpassed
    rw [List.append_assoc]
    exact ih hahead hpassed
  | case4 offset ahead right passed heq ih =>
    obtain rfl := not_not.mp heq
    obtain ⟨us, _, rfl, hfront, hsign⟩ := hahead.of_reverse_cons
    obtain @⟨token, _, hop⟩ := hsign
    obtain _ | @⟨_, _, _, vs, hright, hbehind⟩ := hpassed
    obtain _ | @⟨_, first, others, hderives, hoffset, hexact, hle⟩ := hright
    -- the new operand begins with the token of its operator
    have hwithin : token :: first :: others <:+: us ++ [token] ++ (first :: others ++ vs) :=
      ⟨us, vs, by simp⟩
    refine accountsFor_accept_bind hwithin (.not hop hderives) rfl (hexact.negated _) ?_
    intro hnegated
    have hrest := ih _ hfront (.cons hnegated hbehind)
    rwa [List.append_assoc]
  | case5 offset right passed c left ahead heq ih =>
    obtain rfl := not_not.mp heq
    obtain ⟨_, _, rfl, hrow, hsign⟩ := hahead.of_reverse_cons
    obtain ⟨us, _, rfl, hfront, hleft⟩ := hrow.of_reverse_cons
    obtain @⟨token, _, hop⟩ := hsign
    obtain _ | @⟨_, first, others, hderivesl, hoffset, hexactl, _⟩ := hleft
    obtain _ | @⟨_, _, _, vs, hright, hbehind⟩ := hpassed
    obtain _ | @⟨_, firstr, othersr, hderivesr, _, hexactr, _⟩ := hright
    -- here it begins with the first token of the left operand
    have hwithin : first :: (others ++ token :: firstr :: othersr) <:+:
        us ++ first :: others ++ [token] ++ (firstr :: othersr ++ vs) :=
      ⟨us, vs, by simp⟩
    refine accountsFor_accept_bind hwithin (.join hderivesl hop hderivesr) hoffset
      (hexactl.joined hexactr c) ?_
    intro hjoined
    have hrest := ih _ hfront (.cons hjoined hbehind)
    simpa using hrest
  | case6 passed ahead offset right c heq hnone =>
    obtain ⟨us, _, rfl, _, hsign⟩ := hahead.of_reverse_cons
    obtain @⟨token, _, hop⟩ := hsign
    exact ⟨token, .missingOperand .left (by simp) hop⟩
  | case7 =>
    obtain ⟨us, _, rfl, _, hsign⟩ := hahead.of_reverse_cons
    obtain @⟨token, _, hop⟩ := hsign
    exact ⟨token, .missingOperand .right (by simp) hop⟩

/-- A pass accounts for the tokens of its phrase. -/
theorem accountsFor_pass (op : Operator) {p : Phrase} (h : Covers (categoryBelow op) p ts) :
    AccountsFor (categoryOf op) ts (pass p op) := by
  have hreverse : Covers (categoryBelow op) p.reverse.reverse ts := by
    rwa [List.reverse_reverse]
  have hpass := accountsFor_passFrom hreverse .nil
  rwa [List.append_nil] at hpass

/-! ## All passes -/

/-- The passes by precedence make chains under the loosest connective of atoms. -/
theorem accountsFor_foldlM_pass {p : Phrase} (h : Covers .atom p ts) :
    AccountsFor (.chain .or) ts (Operator.precedence.foldlM pass p) := by
  have hnot : AccountsFor .negation ts (pass p .not) := accountsFor_pass .not h
  have hand : ∀ p, Covers .negation p ts → AccountsFor (.chain .and) ts (pass p (.binary .and)) :=
    fun _ h => accountsFor_pass (.binary .and) h
  have hxor : ∀ p, Covers (.chain .and) p ts →
      AccountsFor (.chain .xor) ts (pass p (.binary .xor)) :=
    fun _ h => accountsFor_pass (.binary .xor) h
  have hor : ∀ p, Covers (.chain .xor) p ts →
      AccountsFor (.chain .or) ts (pass p (.binary .or)) :=
    fun _ h => accountsFor_pass (.binary .or) h
  -- what one pass makes is what the next one takes
  rw [Operator.precedence]
  simp only [List.foldlM_cons, List.foldlM_nil]
  refine hnot.bind fun p h => (hand p h).bind fun p h => (hxor p h).bind fun p h => ?_
  exact (hor p h).bind fun p h => h

/-- Where nothing but operands is left, an error points at the second one, and it stands right
behind the first one. -/
theorem exists_pointsAt_of_only {p : Phrase} {e : CompileError}
    (hcovers : Covers (.chain .or) p ts) (hoperands : ∀ op offset, Piece.operator op offset ∉ p)
    (h : p.only = .error e) : ∃ token, e.PointsAt ts token := by
  unfold only at h
  split at h
  · cases h
  · cases h
  · rename_i op offset
    exact absurd List.mem_cons_self (hoperands op offset)
  · rename_i left right rest
    cases h
    obtain _ | ⟨hleft, hcovers⟩ := hcovers
    obtain _ | @⟨_, _, _, us, hright, _⟩ := hcovers
    obtain _ | @⟨l, firstl, othersl, hderivesl, _⟩ := hleft
    · exact absurd List.mem_cons_self (hoperands _ _)
    obtain _ | @⟨r, first, others, hderives, hoffset, _⟩ := hright
    · exact absurd (List.mem_cons_of_mem _ List.mem_cons_self) (hoperands _ _)
    -- the tokens of the first operand end right in front of those of the second one
    obtain hnil | ⟨before, last, hlast⟩ := List.eq_nil_or_concat (firstl :: othersl)
    · cases hnil
    rw [List.concat_eq_append] at hlast
    rw [hlast] at hderivesl ⊢
    have hwithin : before ++ last :: first :: others <:+:
        before ++ [last] ++ (first :: others ++ us) := ⟨[], us, by simp⟩
    have hpoints := CompileError.PointsAt.missingOperator hwithin hderivesl.toExpression
      hderives.toExpression hderivesl.endsOperand hderives.beginsOperand
    rw [← hoffset] at hpoints
    exact ⟨first, hpoints⟩

/-- A phrase that is refused stands for a token that the error points at. -/
theorem Covers.exists_pointsAt {p : Phrase} {e : CompileError} (hcovers : Covers .atom p ts)
    (h : p.fold = .error e) : ∃ token, e.PointsAt ts token := by
  have haccounts := accountsFor_foldlM_pass hcovers
  obtain hpasses | ⟨q, hpasses, honly⟩ := bind_eq_error_iff.mp h
  · rwa [hpasses] at haccounts
  · rw [hpasses] at haccounts
    refine exists_pointsAt_of_only haccounts ?_ honly
    intro op offset hmem
    have hnot := ((absorbsAll_of_foldlM_pass hpasses).not_mem hmem).1
    exact hnot op.mem_precedence

end Phrase

/-! ## The open levels -/

namespace Nesting

variable {groups : Nat} {ts : List Token}

/-- The innermost level stands for the last of the tokens. -/
theorem Covers.exists_level {level : Level} {outer : List (Level × Nat)}
    (h : Covers ⟨level, outer⟩ ts) : ∃ us, us <:+ ts ∧ level.Covers us := by
  cases h with
  | level h => exact ⟨ts, List.suffix_rfl, h⟩
  | @group _ _ _ opening ts us _ _ h =>
    exact ⟨us, ⟨ts ++ [opening], by simp⟩, h⟩

/-- A level that is refused holds a token that the error points at. -/
theorem Covers.exists_pointsAt {level : Level} {outer : List (Level × Nat)} {e : CompileError}
    (h : Covers ⟨level, outer⟩ ts) (hfold : level.fold = .error e) :
    ∃ token, e.PointsAt ts token := by
  obtain ⟨us, hsuffix, hlevel⟩ := h.exists_level
  obtain ⟨token, hpoints⟩ := hlevel.pieces.exists_pointsAt hfold
  exact ⟨token, hpoints.mono hsuffix.isInfix⟩

/-- Where a token is refused, the error points at it or at one before it. -/
theorem Refuse.exists_pointsAt {nesting : Nesting} {token : Token} {e : CompileError}
    (h : Refuse groups nesting token e) (hcovers : nesting.Covers ts) :
    ∃ blamed, e.PointsAt (ts ++ significant [token]) blamed := by
  have hkeep : token.kind ≠ .separator → token ∈ ts ++ significant [token] := by
    intro hkind
    rw [Grammar.significant_cons hkind]
    exact List.mem_append_right _ List.mem_cons_self
  cases h with
  | opener hkind _ => exact ⟨token, .groupsTooDeep (hkeep (by simp [hkind])) hkind⟩
  | closer _ hfold =>
    obtain ⟨blamed, hpoints⟩ := hcovers.exists_pointsAt hfold
    exact ⟨blamed, hpoints.mono (List.prefix_append ts _).isInfix⟩
  | operator hkind hnone => exact ⟨token, .unknownOperator (hkeep (by simp [hkind])) hkind hnone⟩
  | literal hkind _ => exact ⟨token, .strayLiteral (hkeep (by simp [hkind])) hkind⟩

/-- Where reading fails, the error points at one of the tokens. -/
theorem Covers.exists_pointsAt_of_read {nesting : Nesting} {tokens : List Token}
    {e : CompileError} (h : nesting.Covers ts) (hread : nesting.read groups tokens = .error e) :
    ∃ token, e.PointsAt (ts ++ significant tokens) token := by
  induction tokens generalizing nesting ts with
  | nil => cases hread
  | cons token tokens ih =>
    have hcons : ts ++ significant (token :: tokens) =
        ts ++ significant [token] ++ significant tokens := by
      rw [List.append_assoc, ← Grammar.significant_append, List.singleton_append]
    rw [hcons]
    cases hnext : nesting.next groups token with
    | error e' =>
      rw [read_cons_of_error hnext] at hread
      cases hread
      obtain ⟨blamed, hpoints⟩ := (refuse_of_next hnext).exists_pointsAt h
      exact ⟨blamed, hpoints.mono (List.prefix_append _ _).isInfix⟩
    | ok next? =>
      cases next? with
      | none =>
        rw [read_cons_of_none hnext] at hread
        cases hread
      | some between =>
        rw [read_cons_of_some hnext] at hread
        exact ih (h.advance (advance_of_next hnext)) hread

/-- Where a level cannot be closed, the error points at one of the tokens read. -/
theorem Covers.exists_pointsAt_of_close {nesting : Nesting} {e : CompileError}
    (h : nesting.Covers ts) (hclose : nesting.close = .error e) :
    ∃ token, e.PointsAt ts token := by
  obtain ⟨level, outer⟩ := nesting
  obtain hfold | ⟨group, _, hopen⟩ := bind_eq_error_iff.mp hclose
  · exact h.exists_pointsAt hfold
  · cases h with
    | level => cases hopen
    | group _ hopening _ =>
      cases hopen
      exact ⟨_, .unclosedGroup (by simp) hopening⟩

end Nesting

/-! ## Whole expressions -/

variable {tokens : List Token} {e : CompileError}

/-- Whatever is wrong with a level, the error points at one of the tokens: while the level is read,
at the token that is refused or at one that the open levels stand for, and at its end at one of all
those that were read. -/
theorem exists_pointsAt_of_readLevel {groups : Nat} (h : readLevel groups tokens = .error e) :
    ∃ token, e.PointsAt (significant tokens) token := by
  obtain hread | ⟨⟨nesting, rest⟩, hread, hpair⟩ := bind_eq_error_iff.mp h
  · exact Nesting.covers_start.exists_pointsAt_of_read hread
  · obtain hclose | ⟨_, _, hpure⟩ := bind_eq_error_iff.mp hpair
    · obtain ⟨taken, rfl, hcovers⟩ := Nesting.covers_start.read hread
      rw [List.nil_append] at hcovers
      obtain ⟨token, hpoints⟩ := hcovers.exists_pointsAt_of_close hclose
      rw [Grammar.significant_append]
      exact ⟨token, hpoints.mono (List.prefix_append _ _).isInfix⟩
    · cases hpure

/-- What remains of the tokens behind a level is a closing bracket and what follows it. -/
theorem eq_closer_of_readLevel {groups : Nat} {m : Measured} {stray : Token} {rest : List Token}
    (h : readLevel groups tokens = .ok (m, stray :: rest)) :
    stray ∈ tokens ∧ stray.kind = .closer := by
  obtain ⟨⟨nesting, rest'⟩, hread, hpair⟩ := bind_eq_ok_iff.mp h
  obtain ⟨closed, _, hpure⟩ := bind_eq_ok_iff.mp hpair
  cases hpure
  obtain ⟨taken, rfl, _⟩ := Nesting.covers_start.read hread
  exact ⟨by simp, (Nesting.stray_of_read hread).1⟩

/-- Whatever is wrong with the tokens of an expression, the error points at one of them. -/
theorem exists_pointsAt_of_parse (h : parse tokens = .error e) :
    ∃ token, e.PointsAt (significant tokens) token := by
  obtain hlevel | ⟨⟨m, rest⟩, hlevel, hrest⟩ := bind_eq_error_iff.mp h
  · exact exists_pointsAt_of_readLevel hlevel
  · cases rest with
    | nil => cases hrest
    | cons stray rest =>
      cases hrest
      obtain ⟨hmem, hkind⟩ := eq_closer_of_readLevel hlevel
      have hkeep : stray ∈ significant tokens := by
        rw [significant, List.mem_filter]
        exact ⟨hmem, by simp [hkind]⟩
      exact ⟨stray, .strayCloser hkeep hkind⟩

end PredicateExpr
