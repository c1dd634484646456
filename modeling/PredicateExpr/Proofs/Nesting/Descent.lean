import Mathlib.Tactic.Common
import PredicateExpr.Proofs.Nesting.Calls
import PredicateExpr.Proofs.Nesting.Enclosing

/-!
# Descent reads levels

A call reads the innermost of the open levels and leaves those around it alone. So what it reads is
what `Nesting.read` reads from there on, whatever levels are around it (`exists_readOn_eq`), and for
the first call this is `readLevel` (`readLevel_eq`). What `Nesting.read` is known to do then holds
of calls: the tokens that make up a level are balanced, and what is behind them makes no difference.
-/

namespace PredicateExpr

open Grammar (Balanced)

/-- What is behind the cursor begins with the token at the cursor. -/
theorem drop_of_getElem? {tokens : List Token} {cursor : Nat} {token : Token}
    (h : tokens[cursor]? = some token) :
    tokens.drop cursor = token :: tokens.drop (cursor + 1) := by
  obtain ⟨hlt, rfl⟩ := List.getElem?_eq_some_iff.mp h
  exact List.drop_eq_getElem_cons hlt

/-- Where a closing bracket is, it is the first of what is behind the cursor. -/
theorem exists_drop_of_closesAt {tokens : List Token} {cursor : Nat}
    (h : closesAt tokens cursor = true) :
    ∃ closing, closing.kind = .closer ∧
      tokens.drop cursor = closing :: tokens.drop (cursor + 1) := by
  obtain ⟨closing, hclosing, hcloser⟩ := closesAt_eq_true_iff.mp h
  exact ⟨closing, hcloser, drop_of_getElem? hclosing⟩

/-- Where a call stops and no closing bracket is, nothing is left. -/
theorem StopsAt.drop_eq_nil {tokens : List Token} {cursor : Nat} (h : StopsAt tokens cursor)
    (hcloses : closesAt tokens cursor = false) : tokens.drop cursor = [] := by
  refine List.drop_eq_nil_of_le ?_
  rw [← List.getElem?_eq_none_iff, Option.eq_none_iff_forall_ne_some]
  intro token htoken
  rw [closesAt_eq_true_iff.mpr ⟨token, htoken, h token htoken⟩] at hcloses
  cases hcloses

/-- The place where a level stops is at the end or at a closing bracket. -/
theorem StopsAt.eq_length_or {tokens : List Token} {cursor : Nat} (h : StopsAt tokens cursor)
    (hle : cursor ≤ tokens.length) : cursor = tokens.length ∨ closesAt tokens cursor = true := by
  cases hcloses : closesAt tokens cursor with
  | false => exact .inl (Nat.le_antisymm hle (List.drop_eq_nil_iff.mp (h.drop_eq_nil hcloses)))
  | true => exact .inr rfl

/-! ## The levels agree -/

/-- A token that is no bracket does the same to a level that is read by descent. -/
theorem Nesting.next_of_take {groups : Nat} {token : Token} (hopener : token.kind ≠ .opener)
    (hcloser : token.kind ≠ .closer) (level : Level) (outer : List (Level × Nat)) :
    Nesting.next groups ⟨level, outer⟩ token =
      (level.take token).map fun level => some ⟨level, outer⟩ := by
  unfold Nesting.next Level.take
  cases hkind : token.kind with
  | opener => exact absurd hkind hopener
  | closer => exact absurd hkind hcloser
  | separator => rfl
  | operator =>
    dsimp only
    cases Operator.ofText? token.text <;> rfl
  | literal =>
    dsimp only
    cases level.addArg? token.text <;> rfl
  | word => rfl

/-- The expression of the first level, read on from where the levels stand, with what remains. -/
def Nesting.readOn (groups : Nat) (nesting : Nesting) (tokens : List Token) :
    Except CompileError (Measured × List Token) :=
  nesting.read groups tokens >>= fun found => found.1.close >>= fun group => .ok (group, found.2)

namespace Nesting

variable {groups : Nat} {nesting next : Nesting} {token : Token} {tokens : List Token}

theorem readOn_start : start.readOn groups tokens = readLevel groups tokens :=
  rfl

/-- Where a token is taken, the reading goes on behind it. -/
theorem readOn_of_some (h : nesting.next groups token = .ok (some next)) :
    nesting.readOn groups (token :: tokens) = next.readOn groups tokens := by
  rw [readOn, readOn, read_cons_of_some h]

/-- Where a token is refused, so is the expression. -/
theorem readOn_of_error {e : CompileError} (h : nesting.next groups token = .error e) :
    nesting.readOn groups (token :: tokens) = .error e := by
  rw [readOn, read_cons_of_error h]
  rfl

/-- Behind an opening bracket a level is read with the one before it around. -/
theorem readOn_of_opener {level : Level} {outer : List (Level × Nat)} {cursor : Nat}
    (htoken : tokens[cursor]? = some token) (hopener : token.kind = .opener)
    (hlt : groups + outer.length < maxDepth) :
    readOn groups ⟨level, outer⟩ (tokens.drop cursor) =
      readOn groups ⟨.start, (level, token.offset) :: outer⟩ (tokens.drop (cursor + 1)) := by
  rw [drop_of_getElem? htoken, readOn_of_some (next_of_opener hopener hlt)]

/-- The only level stops where a call stops. -/
theorem read_of_stopsAt {level : Level} {cursor : Nat} (h : StopsAt tokens cursor) :
    read groups ⟨level, []⟩ (tokens.drop cursor) = .ok (⟨level, []⟩, tokens.drop cursor) := by
  cases hcloses : closesAt tokens cursor with
  | false =>
    rw [h.drop_eq_nil hcloses]
    rfl
  | true =>
    obtain ⟨closing, hcloser, hdrop⟩ := exists_drop_of_closesAt hcloses
    have hnext : Nesting.next groups ⟨level, []⟩ closing = .ok none := by
      simp [Nesting.next, hcloser]
    rw [hdrop, read_cons_of_none hnext]

/-- A level that is an expression is returned where it ends, if nothing is around it. -/
theorem readOn_of_fold_ok {level : Level} {cursor : Nat} {m : Measured}
    (hstops : StopsAt tokens cursor) (hfold : level.fold = .ok m) :
    readOn groups ⟨level, []⟩ (tokens.drop cursor) = .ok (m, tokens.drop cursor) := by
  rw [readOn, read_of_stopsAt hstops, ok_bind, close, hfold]
  rfl

/-- A level that is no expression is refused where it ends, whatever is around it. -/
theorem readOn_of_fold_error {level : Level} {outer : List (Level × Nat)} {cursor : Nat}
    {e : CompileError} (hstops : StopsAt tokens cursor) (hfold : level.fold = .error e) :
    readOn groups ⟨level, outer⟩ (tokens.drop cursor) = .error e := by
  cases outer with
  | nil =>
    rw [readOn, read_of_stopsAt hstops, ok_bind, close, hfold]
    rfl
  | cons opened outer =>
    cases hcloses : closesAt tokens cursor with
    | false =>
      rw [hstops.drop_eq_nil hcloses, readOn, read, ok_bind, close, hfold]
      rfl
    | true =>
      obtain ⟨closing, hcloser, hdrop⟩ := exists_drop_of_closesAt hcloses
      rw [hdrop]
      refine readOn_of_error ?_
      rw [next_of_closer hcloser, hfold, error_bind]

/-- A level with another one around it is closed where it ends, if a bracket is there. -/
theorem readOn_of_fold_around {level around : Level} {offset : Nat} {outer : List (Level × Nat)}
    {cursor : Nat} {m : Measured} (hcloses : closesAt tokens cursor = true)
    (hfold : level.fold = .ok m) :
    readOn groups ⟨level, (around, offset) :: outer⟩ (tokens.drop cursor) =
      readOn groups ⟨around.push (.operand ⟨m, offset⟩), outer⟩ (tokens.drop (cursor + 1)) := by
  obtain ⟨closing, hcloser, hdrop⟩ := exists_drop_of_closesAt hcloses
  rw [hdrop]
  refine readOn_of_some ?_
  rw [next_of_closer hcloser, hfold, ok_bind]

/-- A level with another one around it is refused at the end of the tokens. -/
theorem readOn_of_unclosed {level around : Level} {offset : Nat} {outer : List (Level × Nat)}
    {cursor : Nat} {m : Measured} (hstops : StopsAt tokens cursor)
    (hcloses : closesAt tokens cursor = false) (hfold : level.fold = .ok m) :
    readOn groups ⟨level, (around, offset) :: outer⟩ (tokens.drop cursor) =
      .error (.unclosedGroup offset) := by
  rw [hstops.drop_eq_nil hcloses, readOn, read, ok_bind, close, hfold]
  rfl

end Nesting

namespace Descends

variable {tokens : List Token} {groups cursor : Nat} {level : Level} {d : Descent}

/-- Levels that are read by descent lead to the level that the call folds in the end, with the same
levels around it, and to the place where the call leaves the cursor. -/
theorem exists_readOn_eq (h : Descends tokens groups level cursor d) {base : Nat}
    {outer : List (Level × Nat)} (hgroups : groups = base + outer.length) :
    (∀ e, d.result = .error e →
      Nesting.readOn base ⟨level, outer⟩ (tokens.drop cursor) = .error e) ∧
    (∀ m, d.result = .ok m → ∃ last : Level, last.fold = .ok m ∧
      Nesting.readOn base ⟨level, outer⟩ (tokens.drop cursor) =
        Nesting.readOn base ⟨last, outer⟩ (tokens.drop d.cursor)) := by
  -- The levels around are left open, since the call for a group has one more around it.
  induction h generalizing outer with
  | @stop groups level cursor hstops =>
    exact ⟨fun e hresult => Nesting.readOn_of_fold_error hstops hresult,
      fun m hresult => ⟨level, hresult, rfl⟩⟩
  | @tooDeep groups level cursor token htoken hopener hdeep =>
    refine ⟨fun e hresult => ?_, fun m hresult => nomatch hresult⟩
    cases hresult
    rw [drop_of_getElem? htoken]
    exact Nesting.readOn_of_error (Nesting.next_of_opener_of_le hopener (hgroups ▸ hdeep))
  | @failed groups level cursor token group e htoken hopener hdeep _ hresult ih =>
    refine ⟨fun e' hresult' => ?_, fun m hresult => nomatch hresult⟩
    cases hresult'
    rw [Nesting.readOn_of_opener htoken hopener (hgroups ▸ hdeep)]
    have hinside : groups + 1 = base + ((level, token.offset) :: outer).length := by
      rw [hgroups, List.length_cons, Nat.add_assoc]
    exact (ih hinside).1 e hresult
  | @unclosed groups level cursor token group m htoken hopener hdeep hgroup hresult hcloses ih =>
    refine ⟨fun e hresult' => ?_, fun m hresult => nomatch hresult⟩
    cases hresult'
    have hinside : groups + 1 = base + ((level, token.offset) :: outer).length := by
      rw [hgroups, List.length_cons, Nat.add_assoc]
    obtain ⟨last, hfold, hread⟩ := (ih hinside).2 m hresult
    rw [Nesting.readOn_of_opener htoken hopener (hgroups ▸ hdeep), hread]
    exact Nesting.readOn_of_unclosed (hgroup.stopsAt hresult) hcloses hfold
  | @group groups level cursor token group rest m htoken hopener hdeep _ hresult hcloses _ ihgroup
      ihrest =>
    have hinside : groups + 1 = base + ((level, token.offset) :: outer).length := by
      rw [hgroups, List.length_cons, Nat.add_assoc]
    obtain ⟨last, hfold, hread⟩ := (ihgroup hinside).2 m hresult
    rw [Nesting.readOn_of_opener htoken hopener (hgroups ▸ hdeep), hread,
      Nesting.readOn_of_fold_around hcloses hfold]
    exact ihrest hgroups
  | @refuse groups level cursor token e htoken hopener hcloser htake =>
    refine ⟨fun e' hresult => ?_, fun m hresult => nomatch hresult⟩
    cases hresult
    rw [drop_of_getElem? htoken]
    refine Nesting.readOn_of_error ?_
    rw [Nesting.next_of_take hopener hcloser, htake]
    rfl
  | @take groups level next cursor token rest htoken hopener hcloser htake _ ih =>
    have hnext : Nesting.next base ⟨level, outer⟩ token = .ok (some ⟨next, outer⟩) := by
      rw [Nesting.next_of_take hopener hcloser, htake]
      rfl
    rw [drop_of_getElem? htoken, Nesting.readOn_of_some hnext]
    exact ih hgroups

/-- A level that is read by descent is the level that is read. -/
theorem readLevel_eq (h : Descends tokens groups .start cursor d) :
    readLevel groups (tokens.drop cursor) =
      d.result.map fun m => (m, tokens.drop d.cursor) := by
  have hgroups : groups = groups + ([] : List (Level × Nat)).length := rfl
  obtain ⟨herror, hok⟩ := h.exists_readOn_eq hgroups
  rw [← Nesting.readOn_start]
  cases hresult : d.result with
  | error e => exact herror e hresult
  | ok m =>
    obtain ⟨last, hfold, hread⟩ := hok m hresult
    exact hread.trans (Nesting.readOn_of_fold_ok (h.stopsAt hresult) hfold)

end Descends

/-! ## The tokens in between -/

section Between

variable {groups : Nat} {tokens rest : List Token} {m : Measured}

/-- Tokens of which all are read, with no level left open, are balanced. -/
theorem Nesting.balanced_of_read {level : Level}
    (h : start.read groups tokens = .ok (⟨level, []⟩, [])) : Balanced tokens where
  nonneg := by
    rintro front ⟨back, rfl⟩
    rw [read_append] at h
    obtain ⟨⟨between, rest⟩, hfront, hback⟩ := bind_eq_ok_iff.mp h
    cases rest with
    | nil =>
      have hlength := length_outer_of_read hfront
      simp only [start, List.length_nil] at hlength
      omega
    | cons stray rest => cases hback
  settled := by
    have hlength := length_outer_of_read h
    simp only [start, List.length_nil] at hlength
    omega

/-- A level is read of balanced tokens in front of what remains, and of them alone. -/
theorem exists_balanced_of_readLevel (h : readLevel groups tokens = .ok (m, rest)) :
    ∃ taken, tokens = taken ++ rest ∧ Balanced taken ∧ readLevel groups taken = .ok (m, []) := by
  obtain ⟨⟨⟨level, outer⟩, rest'⟩, hread, hpair⟩ := bind_eq_ok_iff.mp h
  obtain ⟨closed, hclose, hpure⟩ := bind_eq_ok_iff.mp hpair
  cases hpure
  obtain ⟨group, hfold, hend⟩ := bind_eq_ok_iff.mp hclose
  cases outer with
  | cons opened outer => cases hend
  | nil =>
    obtain ⟨taken, htokens, htaken⟩ := Nesting.exists_taken_of_read hread
    refine ⟨taken, htokens, Nesting.balanced_of_read htaken, ?_⟩
    rw [readLevel, htaken, ok_bind]
    dsimp only
    rw [hclose]
    rfl

end Between

/-- There are as many tokens between two places as the places are apart. -/
theorem length_eq_of_drop_eq_append {tokens taken : List Token} {i j : Nat}
    (hj : j ≤ tokens.length) (h : tokens.drop i = taken ++ tokens.drop j) :
    taken.length = j - i := by
  have hlength := congrArg List.length h
  rw [List.length_append, List.length_drop, List.length_drop] at hlength
  omega

/-- The tokens between two places are those in front of what is behind the second one. -/
theorem extract_eq_of_drop_eq_append {tokens taken : List Token} {i j : Nat}
    (hj : j ≤ tokens.length) (h : tokens.drop i = taken ++ tokens.drop j) :
    tokens.extract i j = taken := by
  rw [List.extract_eq_take_drop, h, List.take_left' (length_eq_of_drop_eq_append hj h)]

/-- A call that reads a level of tokens to their end leaves the cursor there. -/
theorem Descends.of_readLevel {tokens : List Token} {groups : Nat} {m : Measured} {d : Descent}
    (h : Descends tokens groups .start 0 d) (hread : readLevel groups tokens = .ok (m, [])) :
    d.result = .ok m ∧ d.cursor = tokens.length := by
  have hlevel := h.readLevel_eq
  rw [List.drop_zero, hread] at hlevel
  obtain ⟨m', hresult, hpair⟩ := map_eq_ok_iff.mp hlevel.symm
  obtain ⟨rfl, hdrop⟩ := Prod.mk.inj hpair
  exact ⟨hresult, Nat.le_antisymm (h.cursor_le_length (Nat.zero_le _))
    (List.drop_eq_nil_iff.mp hdrop)⟩

/-- A call inside `groups` groups that starts at a place among the tokens comes to an end. It reads
what `readLevel` reads, the cursor never moves backwards, and there are no more calls inside it at
any time than the limit leaves room for. When nothing is wrong, the tokens up to the cursor are
balanced, the cursor is at a closing bracket or at the end, and those tokens alone are read to the
same expression. -/
theorem descend_contract {tokens : List Token} {groups i : Nat} (hi : i ≤ tokens.length)
    (hgroups : groups ≤ maxDepth) :
    ∃ d : Descent,
      (∀ steps, tokens.length - i < steps → descend tokens steps groups .start i = some d) ∧
      readLevel groups (tokens.drop i) = d.result.map (fun m => (m, tokens.drop d.cursor)) ∧
      (i :: d.looks.map Look.cursor ++ [d.cursor]).IsChain (· ≤ ·) ∧
      (∀ look ∈ d.looks, look.inside ≤ maxDepth - groups) ∧
      ∀ m, d.result = .ok m →
        i ≤ d.cursor ∧ d.cursor ≤ tokens.length ∧
        Balanced (tokens.extract i d.cursor) ∧
        (d.cursor = tokens.length ∨ closesAt tokens d.cursor = true) ∧
        ∃ alone : Descent,
          (∀ steps, d.cursor - i < steps →
            descend (tokens.extract i d.cursor) steps groups .start 0 = some alone) ∧
          alone.result = .ok m ∧ alone.cursor = d.cursor - i := by
  obtain ⟨d, hd⟩ := Descends.exists_descends tokens groups .start i
  refine ⟨d, fun steps hsteps => hd.descend_eq hsteps, hd.readLevel_eq, hd.isChain_cursors,
    fun look hmem => ?_, fun m hresult => ?_⟩
  · have hle := hd.inside_le hgroups look hmem
    omega
  have hij := hd.cursor_le
  have hj := hd.cursor_le_length hi
  have hread := hd.readLevel_eq
  rw [hresult] at hread
  obtain ⟨taken, htokens, hbalanced, halone⟩ := exists_balanced_of_readLevel hread
  rw [extract_eq_of_drop_eq_append hj htokens, ← length_eq_of_drop_eq_append hj htokens]
  obtain ⟨alone, hdescends⟩ := Descends.exists_descends taken groups .start 0
  obtain ⟨hsame, hend⟩ := hdescends.of_readLevel halone
  exact ⟨hij, hj, hbalanced, (hd.stopsAt hresult).eq_length_or hj, alone,
    fun steps hsteps => hdescends.descend_eq (by rwa [Nat.sub_zero]), hsame, hend⟩

/-- The tokens of `) !(a) ) b`. -/
def negatedGroup : List Token :=
  [⟨.closer, ")", 0⟩, ⟨.operator, "!", 2⟩, ⟨.opener, "(", 3⟩, ⟨.word, "a", 4⟩, ⟨.closer, ")", 5⟩,
    ⟨.closer, ")", 7⟩, ⟨.word, "b", 9⟩]

/-- A call behind the first bracket, inside so many groups that one more is left, reads the negation
and stops at the last bracket. -/
theorem descend_contract_of_negation :
    1 ≤ negatedGroup.length ∧ 255 ≤ maxDepth ∧
      ∃ d : Descent, descend negatedGroup 7 255 .start 1 = some d ∧
        d.result = .ok ⟨.not (.leaf ⟨"a", []⟩), 2⟩ ∧ d.cursor = 5 ∧
        d.looks.map Look.inside = [0, 0, 1, 1, 0, 0] ∧
        Balanced (negatedGroup.extract 1 5) ∧
        ∃ alone : Descent,
          descend (negatedGroup.extract 1 5) 5 255 .start 0 = some alone ∧
          alone.result = .ok ⟨.not (.leaf ⟨"a", []⟩), 2⟩ ∧ alone.cursor = 4 := by
  have hdescend : descend negatedGroup 7 255 .start 1 = some
      ⟨.ok ⟨.not (.leaf ⟨"a", []⟩), 2⟩, 5, [⟨0, 1⟩, ⟨0, 2⟩, ⟨1, 3⟩, ⟨1, 4⟩, ⟨0, 4⟩, ⟨0, 5⟩]⟩ := rfl
  have hstart : 1 ≤ negatedGroup.length := by decide
  have hgroups : 255 ≤ maxDepth := by decide
  obtain ⟨d, hsteps, -, -, -, hok⟩ := descend_contract hstart hgroups
  have hd := hsteps 7 (by decide)
  rw [hdescend, Option.some_inj] at hd
  subst hd
  obtain ⟨-, -, hbalanced, -, alone, halone, hresult, hcursor⟩ := hok _ rfl
  exact ⟨hstart, hgroups, _, hdescend, rfl, rfl, rfl, hbalanced, alone, halone 5 (by decide),
    hresult, hcursor⟩

end PredicateExpr
