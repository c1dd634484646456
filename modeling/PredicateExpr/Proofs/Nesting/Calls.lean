import Mathlib.Data.List.Chain
import Mathlib.Tactic.Common
import PredicateExpr.Nesting.Descent

/-!
# The calls of a descent

`Descends` is what a call does when it has all the steps that it needs: one constructor for each way
in which it can go on from a look at the tokens. Statements about a call are shown by induction on
it, with what is known about the calls inside at hand.

Every call comes to an end, since each one that it makes starts further to the right
(`exists_descends`), and more steps than there are tokens left are enough for it (`descend_eq`). The
cursor only ever moves to the right (`isChain_cursors`), and a group is entered only where the limit
leaves room for one more (`inside_le`).
-/

namespace PredicateExpr

/-! ## The cursor -/

/-- The cursor is in front of the end when a token is there. -/
theorem lt_length_of_getElem? {tokens : List Token} {cursor : Nat} {token : Token}
    (h : tokens[cursor]? = some token) : cursor < tokens.length :=
  (List.getElem?_eq_some_iff.mp h).1

/-- A closing bracket is at the cursor when the token there is one. -/
theorem closesAt_eq_true_iff {tokens : List Token} {cursor : Nat} :
    closesAt tokens cursor = true ↔
      ∃ token, tokens[cursor]? = some token ∧ token.kind = .closer := by
  unfold closesAt
  cases tokens[cursor]? with
  | none => simp
  | some token => simp

/-- The cursor is where a call stops if nothing is wrong. -/
def StopsAt (tokens : List Token) (cursor : Nat) : Prop :=
  ∀ token, tokens[cursor]? = some token → token.kind = .closer

/-! ## One look -/

section Look

variable {tokens : List Token} {steps groups cursor : Nat} {level : Level} {token : Token}

/-- At the end of a level its phrase is folded. -/
theorem descend_of_stopsAt (hsteps : 0 < steps) (h : StopsAt tokens cursor) :
    descend tokens steps groups level cursor = some (.halt level.fold cursor) := by
  rw [← Nat.sub_one_add_one_eq_of_pos hsteps, descend]
  cases htoken : tokens[cursor]? with
  | none => rfl
  | some token => simp only [h token htoken]

/-- An opening bracket inside too many groups is refused. -/
theorem descend_of_opener_of_le (hsteps : 0 < steps) (htoken : tokens[cursor]? = some token)
    (hopener : token.kind = .opener) (hle : maxDepth ≤ groups) :
    descend tokens steps groups level cursor =
      some (.halt (.error (.groupsTooDeep token.offset)) cursor) := by
  rw [← Nat.sub_one_add_one_eq_of_pos hsteps, descend]
  simp only [htoken, hopener, if_pos hle]

/-- Behind another opening bracket the group is read, and then its closing bracket. -/
theorem descend_of_opener (hsteps : 0 < steps) (htoken : tokens[cursor]? = some token)
    (hopener : token.kind = .opener) (hlt : groups < maxDepth) :
    descend tokens steps groups level cursor =
      descend tokens (steps - 1) (groups + 1) .start (cursor + 1) >>= fun group =>
        match group.result with
        | .error e => some ⟨.error e, group.cursor, group.entered cursor⟩
        | .ok m =>
          if closesAt tokens group.cursor then
            descend tokens (steps - 1) groups (level.push (.operand ⟨m, token.offset⟩))
                (group.cursor + 1) >>= fun rest =>
              some (rest.behind (group.checked cursor))
          else
            some ⟨.error (.unclosedGroup token.offset), group.cursor, group.checked cursor⟩ := by
  obtain ⟨steps, rfl⟩ := Nat.exists_eq_add_one_of_ne_zero hsteps.ne'
  rw [descend]
  simp only [htoken, hopener, if_neg (Nat.not_le.mpr hlt)]
  rfl

/-- Any other token is taken, if nothing is wrong with it. -/
theorem descend_of_other (hsteps : 0 < steps) (htoken : tokens[cursor]? = some token)
    (hopener : token.kind ≠ .opener) (hcloser : token.kind ≠ .closer) :
    descend tokens steps groups level cursor =
      match level.take token with
      | .error e => some (.halt (.error e) cursor)
      | .ok level =>
        descend tokens (steps - 1) groups level (cursor + 1) >>= fun rest =>
          some (rest.behind [⟨0, cursor⟩]) := by
  obtain ⟨steps, rfl⟩ := Nat.exists_eq_add_one_of_ne_zero hsteps.ne'
  rw [descend]
  simp only [htoken]
  cases hkind : token.kind with
  | opener => exact absurd hkind hopener
  | closer => exact absurd hkind hcloser
  | separator | operator | literal | word => rfl

end Look

/-! ## The calls without a budget -/

/-- A call with the level, and all that it does. -/
inductive Descends (tokens : List Token) : (groups : Nat) → Level → (cursor : Nat) → Descent → Prop
  /-- The level ends. -/
  | stop {groups : Nat} {level : Level} {cursor : Nat} :
      StopsAt tokens cursor → Descends tokens groups level cursor (.halt level.fold cursor)
  /-- A group is refused. -/
  | tooDeep {groups : Nat} {level : Level} {cursor : Nat} {token : Token} :
      tokens[cursor]? = some token → token.kind = .opener → maxDepth ≤ groups →
      Descends tokens groups level cursor (.halt (.error (.groupsTooDeep token.offset)) cursor)
  /-- Something is wrong inside a group. -/
  | failed {groups : Nat} {level : Level} {cursor : Nat} {token : Token} {group : Descent}
      {e : CompileError} :
      tokens[cursor]? = some token → token.kind = .opener → groups < maxDepth →
      Descends tokens (groups + 1) .start (cursor + 1) group → group.result = .error e →
      Descends tokens groups level cursor ⟨.error e, group.cursor, group.entered cursor⟩
  /-- A group is not closed. -/
  | unclosed {groups : Nat} {level : Level} {cursor : Nat} {token : Token} {group : Descent}
      {m : Measured} :
      tokens[cursor]? = some token → token.kind = .opener → groups < maxDepth →
      Descends tokens (groups + 1) .start (cursor + 1) group → group.result = .ok m →
      closesAt tokens group.cursor = false →
      Descends tokens groups level cursor
        ⟨.error (.unclosedGroup token.offset), group.cursor, group.checked cursor⟩
  /-- A group is an operand of the level. -/
  | group {groups : Nat} {level : Level} {cursor : Nat} {token : Token} {group rest : Descent}
      {m : Measured} :
      tokens[cursor]? = some token → token.kind = .opener → groups < maxDepth →
      Descends tokens (groups + 1) .start (cursor + 1) group → group.result = .ok m →
      closesAt tokens group.cursor = true →
      Descends tokens groups (level.push (.operand ⟨m, token.offset⟩)) (group.cursor + 1) rest →
      Descends tokens groups level cursor (rest.behind (group.checked cursor))
  /-- Another token is refused. -/
  | refuse {groups : Nat} {level : Level} {cursor : Nat} {token : Token} {e : CompileError} :
      tokens[cursor]? = some token → token.kind ≠ .opener → token.kind ≠ .closer →
      level.take token = .error e → Descends tokens groups level cursor (.halt (.error e) cursor)
  /-- Another token is taken. -/
  | take {groups : Nat} {level next : Level} {cursor : Nat} {token : Token} {rest : Descent} :
      tokens[cursor]? = some token → token.kind ≠ .opener → token.kind ≠ .closer →
      level.take token = .ok next → Descends tokens groups next (cursor + 1) rest →
      Descends tokens groups level cursor (rest.behind [⟨0, cursor⟩])

/-- The last look at a group is the one at its end. -/
theorem Descent.map_cursor_checked (group : Descent) (cursor : Nat) :
    (group.checked cursor).map Look.cursor =
      (group.entered cursor).map Look.cursor ++ [group.cursor] := by
  rw [checked, List.map_append]
  rfl

namespace Descends

variable {tokens : List Token} {groups cursor : Nat} {level : Level} {d : Descent}

/-- The cursor never moves backwards. -/
theorem cursor_le (h : Descends tokens groups level cursor d) : cursor ≤ d.cursor := by
  induction h with
  | stop _ => exact Nat.le_refl _
  | tooDeep _ _ _ => exact Nat.le_refl _
  | failed _ _ _ _ _ ih => exact Nat.le_of_succ_le ih
  | unclosed _ _ _ _ _ _ ih => exact Nat.le_of_succ_le ih
  | group _ _ _ _ _ _ _ ihgroup ihrest =>
    exact Nat.le_of_succ_le (ihgroup.trans (Nat.le_of_succ_le ihrest))
  | refuse _ _ _ _ => exact Nat.le_refl _
  | take _ _ _ _ _ ih => exact Nat.le_of_succ_le ih

/-- A call at a token comes to an end if the calls further to the right do. -/
theorem exists_of_ahead {token : Token} (htoken : tokens[cursor]? = some token)
    (hahead : ∀ groups level later, cursor < later → ∃ d, Descends tokens groups level later d)
    (groups : Nat) (level : Level) : ∃ d, Descends tokens groups level cursor d := by
  by_cases hcloser : token.kind = .closer
  · refine ⟨_, .stop fun other hother => ?_⟩
    rw [htoken] at hother
    cases hother
    exact hcloser
  by_cases hopener : token.kind = .opener
  · by_cases hle : maxDepth ≤ groups
    · exact ⟨_, .tooDeep htoken hopener hle⟩
    have hlt := Nat.lt_of_not_le hle
    obtain ⟨group, hgroup⟩ := hahead (groups + 1) .start (cursor + 1) (Nat.lt_succ_self cursor)
    cases hresult : group.result with
    | error e => exact ⟨_, .failed htoken hopener hlt hgroup hresult⟩
    | ok m =>
      cases hcloses : closesAt tokens group.cursor with
      | false => exact ⟨_, .unclosed htoken hopener hlt hgroup hresult hcloses⟩
      | true =>
        obtain ⟨rest, hrest⟩ := hahead groups (level.push (.operand ⟨m, token.offset⟩))
          (group.cursor + 1) (Nat.lt_succ_of_le (Nat.le_of_succ_le hgroup.cursor_le))
        exact ⟨_, .group htoken hopener hlt hgroup hresult hcloses hrest⟩
  · cases htake : level.take token with
    | error e => exact ⟨_, .refuse htoken hopener hcloser htake⟩
    | ok next =>
      obtain ⟨rest, hrest⟩ := hahead groups next (cursor + 1) (Nat.lt_succ_self cursor)
      exact ⟨_, .take htoken hopener hcloser htake hrest⟩

/-- Every call comes to an end. The induction is on the number of tokens in front of the cursor. -/
theorem exists_descends (tokens : List Token) (groups : Nat) (level : Level) (cursor : Nat) :
    ∃ d, Descends tokens groups level cursor d := by
  generalize hleft : tokens.length - cursor = left
  induction left using Nat.strongRecOn generalizing groups level cursor with
  | ind left ih =>
    cases htoken : tokens[cursor]? with
    | none =>
      refine ⟨_, .stop fun token hsome => ?_⟩
      rw [htoken] at hsome
      cases hsome
    | some token =>
      have hlt := lt_length_of_getElem? htoken
      exact exists_of_ahead htoken
        (fun groups level later hlater => ih _ (by omega) groups level later rfl) groups level

/-- A budget is enough if it is larger than the number of tokens in front of the cursor. -/
theorem descend_eq (h : Descends tokens groups level cursor d) {steps : Nat}
    (hsteps : tokens.length - cursor < steps) :
    descend tokens steps groups level cursor = some d := by
  have hpos := Nat.zero_lt_of_lt hsteps
  induction h generalizing steps with
  | stop hstops => exact descend_of_stopsAt hpos hstops
  | tooDeep htoken hopener hdeep => exact descend_of_opener_of_le hpos htoken hopener hdeep
  | failed htoken hopener hdeep _ hresult ih =>
    have hlt := lt_length_of_getElem? htoken
    rw [descend_of_opener hpos htoken hopener hdeep, ih (by omega) (by omega)]
    simp only [hresult, Option.bind_eq_bind, Option.bind_some]
  | unclosed htoken hopener hdeep _ hresult hcloses ih =>
    have hlt := lt_length_of_getElem? htoken
    rw [descend_of_opener hpos htoken hopener hdeep, ih (by omega) (by omega)]
    simp only [hresult, hcloses, Option.bind_eq_bind, Option.bind_some, Bool.false_eq_true,
      if_false]
  | group htoken hopener hdeep hgroup hresult hcloses _ ihgroup ihrest =>
    have hlt := lt_length_of_getElem? htoken
    have hle := hgroup.cursor_le
    rw [descend_of_opener hpos htoken hopener hdeep, ihgroup (by omega) (by omega)]
    simp only [hresult, hcloses, Option.bind_eq_bind, Option.bind_some, if_true]
    rw [ihrest (by omega) (by omega), Option.bind_some]
  | refuse htoken hopener hcloser htake =>
    rw [descend_of_other hpos htoken hopener hcloser, htake]
  | take htoken hopener hcloser htake _ ih =>
    have hlt := lt_length_of_getElem? htoken
    rw [descend_of_other hpos htoken hopener hcloser, htake]
    dsimp only
    rw [ih (by omega) (by omega), Option.bind_eq_bind, Option.bind_some]

/-! ## Where it looks -/

/-- The cursor stays among the tokens. -/
theorem cursor_le_length (h : Descends tokens groups level cursor d)
    (hle : cursor ≤ tokens.length) : d.cursor ≤ tokens.length := by
  induction h with
  | stop _ => exact hle
  | tooDeep _ _ _ => exact hle
  | failed htoken _ _ _ _ ih => exact ih (lt_length_of_getElem? htoken)
  | unclosed htoken _ _ _ _ _ ih => exact ih (lt_length_of_getElem? htoken)
  | group _ _ _ _ _ hcloses _ _ ihrest =>
    obtain ⟨closing, hclosing, -⟩ := closesAt_eq_true_iff.mp hcloses
    exact ihrest (lt_length_of_getElem? hclosing)
  | refuse _ _ _ _ => exact hle
  | take htoken _ _ _ _ ih => exact ih (lt_length_of_getElem? htoken)

/-- The cursor of a call that was entered does not move backwards. -/
theorem isChain_entered {group : Descent}
    (h : ((cursor + 1) :: group.looks.map Look.cursor ++ [group.cursor]).IsChain (· ≤ ·)) :
    ((group.entered cursor).map Look.cursor ++ [group.cursor]).IsChain (· ≤ ·) := by
  have hchain : (cursor :: group.looks.map Look.cursor ++ [group.cursor]).IsChain (· ≤ ·) :=
    h.imp_head fun hle => Nat.le_of_succ_le hle
  simpa [Descent.entered, Function.comp_def] using hchain

/-- From one look to the next the cursor does not move backwards, nor does it before the first one
or after the last one. -/
theorem isChain_cursors (h : Descends tokens groups level cursor d) :
    (cursor :: d.looks.map Look.cursor ++ [d.cursor]).IsChain (· ≤ ·) := by
  induction h with
  | stop _ => simp [Descent.halt]
  | tooDeep _ _ _ => simp [Descent.halt]
  | failed _ _ _ _ _ ih => exact .cons_cons (Nat.le_refl _) (isChain_entered ih)
  | @unclosed groups level cursor token group m _ _ _ _ _ _ ih =>
    have hlast : [group.cursor, group.cursor].IsChain (· ≤ ·) := by simp
    have hchain := List.isChain_split.mpr ⟨isChain_entered ih, hlast⟩
    dsimp only
    rw [List.cons_append, Descent.map_cursor_checked, List.append_assoc]
    exact .cons_cons (Nat.le_refl cursor) hchain
  | @group groups level cursor token group rest m _ _ _ _ _ _ _ ihgroup ihrest =>
    have hrest : (group.cursor :: (rest.looks.map Look.cursor ++ [rest.cursor])).IsChain (· ≤ ·) :=
      ihrest.imp_head fun hle => Nat.le_of_succ_le hle
    have hchain := List.isChain_split.mpr ⟨isChain_entered ihgroup, hrest⟩
    rw [Descent.behind, List.cons_append, List.map_append, Descent.map_cursor_checked,
      List.append_assoc, List.append_assoc]
    exact .cons_cons (Nat.le_refl cursor) hchain
  | refuse _ _ _ _ => simp [Descent.halt]
  | @take groups level next cursor token rest _ _ _ _ _ ih =>
    have hrest : (cursor :: (rest.looks.map Look.cursor ++ [rest.cursor])).IsChain (· ≤ ·) :=
      ih.imp_head fun hle => Nat.le_of_succ_le hle
    exact .cons_cons (Nat.le_refl cursor) hrest

/-- The looks of a call that was entered are one call further inside. -/
theorem inside_le_of_mem_entered {group : Descent} (hdeep : groups < maxDepth)
    (h : ∀ look ∈ group.looks, groups + 1 + look.inside ≤ maxDepth) :
    ∀ look ∈ group.entered cursor, groups + look.inside ≤ maxDepth := by
  intro look hmem
  obtain rfl | hmem := List.mem_cons.mp hmem
  · exact Nat.le_of_lt hdeep
  · obtain ⟨inner, hinner, rfl⟩ := List.mem_map.mp hmem
    have hle := h inner hinner
    dsimp only
    omega

/-- The looks up to the one at the end of a group are within the limit as well. -/
theorem inside_le_of_mem_checked {group : Descent} (hdeep : groups < maxDepth)
    (h : ∀ look ∈ group.looks, groups + 1 + look.inside ≤ maxDepth) :
    ∀ look ∈ group.checked cursor, groups + look.inside ≤ maxDepth := by
  intro look hmem
  obtain hmem | hmem := List.mem_append.mp hmem
  · exact inside_le_of_mem_entered hdeep h look hmem
  · obtain rfl := List.mem_singleton.mp hmem
    exact Nat.le_of_lt hdeep

/-- No more calls are active at a look than the limit leaves room for. -/
theorem inside_le (h : Descends tokens groups level cursor d) (hle : groups ≤ maxDepth) :
    ∀ look ∈ d.looks, groups + look.inside ≤ maxDepth := by
  induction h with
  | stop _ => simpa [Descent.halt] using hle
  | tooDeep _ _ _ => simpa [Descent.halt] using hle
  | failed _ _ hdeep _ _ ih => exact inside_le_of_mem_entered hdeep (ih hdeep)
  | unclosed _ _ hdeep _ _ _ ih => exact inside_le_of_mem_checked hdeep (ih hdeep)
  | group _ _ hdeep _ _ _ _ ihgroup ihrest =>
    intro look hmem
    obtain hmem | hmem := List.mem_append.mp hmem
    · exact inside_le_of_mem_checked hdeep (ihgroup hdeep) look hmem
    · exact ihrest hle look hmem
  | refuse _ _ _ _ => simpa [Descent.halt] using hle
  | take _ _ _ _ _ ih => simpa [Descent.behind, hle] using ih hle

/-! ## What it reads -/

/-- A level that is read successfully is read to its end. -/
theorem stopsAt (h : Descends tokens groups level cursor d) {m : Measured}
    (hresult : d.result = .ok m) : StopsAt tokens d.cursor := by
  induction h with
  | stop hstop => exact hstop
  | tooDeep _ _ _ => cases hresult
  | failed _ _ _ _ _ _ => cases hresult
  | unclosed _ _ _ _ _ _ _ => cases hresult
  | group _ _ _ _ _ _ _ _ ihrest => exact ihrest hresult
  | refuse _ _ _ _ => cases hresult
  | take _ _ _ _ _ ih => exact ih hresult

end Descends

end PredicateExpr
