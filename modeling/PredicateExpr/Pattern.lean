/-!
# Patterns

A pattern describes stretches of text by regular means. `Pattern.rests` lists what each way of
matching leaves of a text, the preferred way first: a choice prefers its first branch and a
repetition takes as much as it can, both giving way when what follows does not match. The match of
a pattern at a place is the first on this list, and `Pattern.find?` looks for the first place of a
text that has one.

A match is a beginning of the text (`suffix_of_mem_rests`), a pattern with `consumes` takes at
least one character (`length_lt_of_mem_rests`), and what `find?` returns is the text cut in three
(`append_of_find?`).
-/

namespace PredicateExpr

/-- A regular pattern over characters. -/
inductive Pattern
  /-- The empty stretch. -/
  | empty
  /-- One character of a class. -/
  | one (accepts : Char → Bool)
  /-- One or more characters of a class, as many as possible. -/
  | many (accepts : Char → Bool)
  /-- One pattern after the other. -/
  | seq (first second : Pattern)
  /-- The first pattern, or else the second. -/
  | alt (first second : Pattern)
  /-- The empty stretch, where the pattern matches what follows. -/
  | ahead (next : Pattern)

/-- A match found in a text. -/
structure Pattern.Match where
  /-- What stands before the match. -/
  skipped : List Char
  /-- The stretch matched. -/
  text : List Char
  /-- What stands after it. -/
  rest : List Char
  deriving DecidableEq, Repr

namespace Pattern

/-- The given characters, one after the other. -/
def exactly : List Char → Pattern
  | [] => .empty
  | c :: cs => .seq (.one (· == c)) (exactly cs)

/-- A pattern, or else the empty stretch. -/
def maybe (p : Pattern) : Pattern :=
  .alt p .empty

/-- The texts that remain after one, two, three, … characters of a class, the shortest first, put in
front of `found`. -/
def restsOfMany (accepts : Char → Bool) (found : List (List Char)) :
    List Char → List (List Char)
  | [] => found
  | c :: cs => if accepts c then restsOfMany accepts (cs :: found) cs else found

/-- What remains of a text after each way of matching its beginning, the preferred way first. -/
def rests : Pattern → List Char → List (List Char)
  | .empty, cs => [cs]
  | .one _, [] => []
  | .one accepts, c :: cs => if accepts c then [cs] else []
  | .many accepts, cs => restsOfMany accepts [] cs
  | .seq p q, cs => (p.rests cs).flatMap q.rests
  | .alt p q, cs => p.rests cs ++ q.rests cs
  | .ahead p, cs => if (p.rests cs).isEmpty then [] else [cs]

/-- Whether every match takes at least one character. -/
def consumes : Pattern → Bool
  | .empty => false
  | .one _ => true
  | .many _ => true
  | .seq p q => p.consumes || q.consumes
  | .alt p q => p.consumes && q.consumes
  | .ahead _ => false

/-- The match at the beginning of a text: the stretch matched and what remains. -/
def matchStart? (p : Pattern) (cs : List Char) : Option (List Char × List Char) :=
  (p.rests cs).head?.map fun rest => (cs.take (cs.length - rest.length), rest)

/-- The first match in a text. -/
def find? (p : Pattern) : List Char → Option Match
  | [] => (p.matchStart? []).map fun found => ⟨[], found.1, found.2⟩
  | c :: cs =>
    match p.matchStart? (c :: cs) with
    | some found => some ⟨[], found.1, found.2⟩
    | none => (p.find? cs).map fun later => { later with skipped := c :: later.skipped }

/-! ## What matches leave of a text -/

/-- A repetition leaves what was left before, or a proper end of the text. -/
theorem mem_restsOfMany {accepts : Char → Bool} {found : List (List Char)} {cs rest : List Char}
    (h : rest ∈ restsOfMany accepts found cs) :
    rest ∈ found ∨ (rest <:+ cs ∧ rest.length < cs.length) := by
  induction cs generalizing found with
  | nil => exact .inl h
  | cons c cs ih =>
    rw [restsOfMany] at h
    split at h
    · rcases ih h with hmem | ⟨hsuffix, hlt⟩
      · rcases List.mem_cons.mp hmem with rfl | hmem
        · exact .inr ⟨List.suffix_cons _ _, by simp⟩
        · exact .inl hmem
      · exact .inr ⟨hsuffix.trans (List.suffix_cons _ _), by simp; omega⟩
    · exact .inl h

/-- What remains after a match is an end of the text. -/
theorem suffix_of_mem_rests {p : Pattern} {cs rest : List Char} (h : rest ∈ p.rests cs) :
    rest <:+ cs := by
  induction p generalizing cs rest with
  | empty => simp [rests] at h; simp [h]
  | one accepts =>
    cases cs with
    | nil => simp [rests] at h
    | cons c cs =>
      simp only [rests] at h
      split at h
      · simp only [List.mem_singleton] at h; exact h ▸ List.suffix_cons _ _
      · simp at h
  | many accepts =>
    rcases mem_restsOfMany h with h | h
    · simp at h
    · exact h.1
  | seq p q ihp ihq =>
    simp only [rests, List.mem_flatMap] at h
    obtain ⟨middle, hp, hq⟩ := h
    exact (ihq hq).trans (ihp hp)
  | alt p q ihp ihq =>
    simp only [rests, List.mem_append] at h
    exact h.elim (fun h => ihp h) (fun h => ihq h)
  | ahead p _ =>
    simp only [rests] at h
    split at h
    · simp at h
    · simp only [List.mem_singleton] at h; exact h ▸ List.suffix_rfl

/-- A pattern that consumes leaves less than the text. -/
theorem length_lt_of_mem_rests {p : Pattern} {cs rest : List Char} (hp : p.consumes = true)
    (h : rest ∈ p.rests cs) : rest.length < cs.length := by
  induction p generalizing cs rest with
  | empty => simp [consumes] at hp
  | one accepts =>
    cases cs with
    | nil => simp [rests] at h
    | cons c cs =>
      simp only [rests] at h
      split at h
      · simp only [List.mem_singleton] at h; simp [h]
      · simp at h
  | many accepts =>
    rcases mem_restsOfMany h with h | h
    · simp at h
    · exact h.2
  | seq p q ihp ihq =>
    simp only [rests, List.mem_flatMap] at h
    obtain ⟨middle, hpm, hqm⟩ := h
    have hle := (suffix_of_mem_rests hpm).length_le
    have hle' := (suffix_of_mem_rests hqm).length_le
    simp only [consumes, Bool.or_eq_true] at hp
    rcases hp with hp | hp
    · have := ihp hp hpm; omega
    · have := ihq hp hqm; omega
  | alt p q ihp ihq =>
    simp only [rests, List.mem_append] at h
    simp only [consumes, Bool.and_eq_true] at hp
    exact h.elim (fun h => ihp hp.1 h) (fun h => ihq hp.2 h)
  | ahead p _ => simp [consumes] at hp

/-! ## Matches cut the text -/

/-- A match at the beginning cuts the text in two. -/
theorem append_of_matchStart? {p : Pattern} {cs text rest : List Char}
    (h : p.matchStart? cs = some (text, rest)) : text ++ rest = cs := by
  simp only [matchStart?, Option.map_eq_some_iff, Prod.mk.injEq] at h
  obtain ⟨r, hr, rfl, rfl⟩ := h
  obtain ⟨front, rfl⟩ := suffix_of_mem_rests (List.mem_of_head? hr)
  simp

/-- A match at the beginning of a pattern that consumes is not empty. -/
theorem length_lt_of_matchStart? {p : Pattern} {cs text rest : List Char}
    (hp : p.consumes = true) (h : p.matchStart? cs = some (text, rest)) :
    rest.length < cs.length := by
  simp only [matchStart?, Option.map_eq_some_iff, Prod.mk.injEq] at h
  obtain ⟨r, hr, _, rfl⟩ := h
  exact length_lt_of_mem_rests hp (List.mem_of_head? hr)

/-- The match found cuts the text in three. -/
theorem append_of_find? {p : Pattern} {cs : List Char} {found : Match}
    (h : p.find? cs = some found) : found.skipped ++ found.text ++ found.rest = cs := by
  induction cs generalizing found with
  | nil =>
    obtain ⟨here, hhere, rfl⟩ := Option.map_eq_some_iff.mp h
    exact append_of_matchStart? hhere
  | cons c cs ih =>
    rw [find?] at h
    split at h
    · rename_i here hhere
      cases h
      exact append_of_matchStart? hhere
    · obtain ⟨later, hlater, rfl⟩ := Option.map_eq_some_iff.mp h
      simpa using ih hlater

/-- What stands after the match found of a pattern that consumes is shorter than the text. -/
theorem length_lt_of_find? {p : Pattern} {cs : List Char} {found : Match}
    (hp : p.consumes = true) (h : p.find? cs = some found) : found.rest.length < cs.length := by
  induction cs generalizing found with
  | nil =>
    obtain ⟨here, hhere, rfl⟩ := Option.map_eq_some_iff.mp h
    exact length_lt_of_matchStart? hp hhere
  | cons c cs ih =>
    rw [find?] at h
    split at h
    · rename_i here hhere
      cases h
      exact length_lt_of_matchStart? hp hhere
    · obtain ⟨later, hlater, rfl⟩ := Option.map_eq_some_iff.mp h
      have hlt := ih hlater
      exact Nat.lt_succ_of_lt hlt

end Pattern

end PredicateExpr
