import PredicateExpr.Proofs.Token.Matching

/-!
# Tokens from left to right

To search for the patterns of all kinds and take the closest match comes to the same as to read the
token at the beginning of the text (`readHere?_closest?`), because a match further on ends the scan
all the same. So the tokens of a text are those that are read from left to right, and where no token
can be read the scan stops (`tokenize_eq_leftToRight`).
-/

namespace PredicateExpr

open Text

namespace Token

/-! ## The closest match -/

/-- The kind and the text of a match at the beginning, and what follows it. A match further on
counts for nothing. -/
def readHere? : Option (Kind × Pattern.Match) → Option (Kind × List Char × List Char)
  | some (kind, ⟨[], stretch, rest⟩) => some (kind, kind.textOf stretch, rest)
  | _ => none

/-- A match further on is not read here. -/
theorem readHere?_of_skipped {kind : Kind} {found : Pattern.Match} (h : found.skipped ≠ []) :
    readHere? (some (kind, found)) = none := by
  obtain ⟨skipped, stretch, rest⟩ := found
  cases skipped with
  | nil => exact absurd rfl h
  | cons c skipped => rfl

/-- A match that is found is at the beginning if there is one there. -/
theorem readHere?_find? (kind : Kind) (cs : List Char) :
    readHere? ((kind.pattern.find? cs).map (kind, ·)) = (kind.first? cs).map (kind, ·) := by
  rw [← kind.map_matchStart?]
  cases cs with
  | nil =>
    rw [Pattern.find?]
    cases kind.pattern.matchStart? [] <;> rfl
  | cons c cs =>
    rw [Pattern.find?]
    cases kind.pattern.matchStart? (c :: cs) with
    | none => cases kind.pattern.find? cs <;> rfl
    | some found => rfl

/-- One more kind is of use only as long as there is no match at the beginning. -/
theorem readHere?_nearer (cs : List Char) (best : Option (Kind × Pattern.Match)) (kind : Kind) :
    readHere? (nearer cs best kind) =
      (readHere? best).or ((kind.first? cs).map (kind, ·)) := by
  rw [← readHere?_find?]
  unfold nearer
  rcases best with _ | ⟨other, current⟩
  · cases kind.pattern.find? cs <;> rfl
  · by_cases hhere : current.skipped = []
    · obtain ⟨skipped, stretch, rest⟩ := current
      cases hhere
      rfl
    · rw [readHere?_of_skipped hhere, Option.none_or, if_neg (by simpa using hhere)]
      cases kind.pattern.find? cs with
      | none => exact readHere?_of_skipped hhere
      | some found =>
        dsimp only
        split
        · rfl
        · rename_i hfurther
          have hskipped : found.skipped ≠ [] := by
            intro hnil
            apply hfurther
            simp [hnil, List.length_pos_iff.mpr hhere]
          rw [readHere?_of_skipped hhere, Option.map_some, readHere?_of_skipped hskipped]

/-- The closest match is at the beginning where a token can be read there, and it is that token. -/
theorem readHere?_closest? (cs : List Char) : readHere? (closest? cs) = first? cs := by
  have hfold : ∀ (kinds : List Kind) (best : Option (Kind × Pattern.Match)),
      readHere? (kinds.foldl (nearer cs) best) =
        (readHere? best).or (kinds.findSome? fun kind => (kind.first? cs).map (kind, ·)) := by
    intro kinds
    induction kinds with
    | nil => intro best; exact Option.or_none.symm
    | cons kind kinds ih =>
      intro best
      rw [List.foldl_cons, ih, readHere?_nearer, Option.or_assoc, List.findSome?_cons]
      cases kind.first? cs <;> rfl
  exact hfold Kind.all none

/-- A closest match at the beginning is the token there, and it cuts the text in two. -/
theorem first?_of_closest? {cs : List Char} {kind : Kind} {found : Pattern.Match}
    (h : closest? cs = some (kind, found)) (hhere : found.skipped = []) :
    first? cs = some (kind, kind.textOf found.text, found.rest) ∧
      found.text ++ found.rest = cs := by
  have hfirst := readHere?_closest? cs
  have happend := Pattern.append_of_find? (find?_of_closest? h)
  obtain ⟨skipped, stretch, rest⟩ := found
  dsimp only at hhere happend
  subst hhere
  rw [h] at hfirst
  exact ⟨hfirst.symm, happend⟩

end Token

/-! ## Reading a text -/

/-- The tokens of a scan, or else the byte at which it stopped. -/
def Scan.outcome (scan : Scan) : Except Nat (List Token) :=
  match scan.stop? with
  | none => .ok scan.tokens
  | some stop => .error stop.offset

/-- A token read in front of a scan comes first in its outcome, unless it is a separator. -/
theorem Scan.outcome_prepend (scan : Scan) (kind : Token.Kind) (stretch : List Char)
    (offset : Nat) :
    (scan.prepend kind stretch offset).outcome = scan.outcome.map fun tokens =>
      if kind = .separator then tokens
      else ⟨kind, String.ofList (kind.textOf stretch), offset⟩ :: tokens := by
  obtain ⟨tokens, stop?⟩ := scan
  unfold prepend
  split <;> cases stop? <;> rfl

/-- What is read before a place has no part in what stops the scan behind it. -/
theorem Scan.stop?_prepend (scan : Scan) (kind : Token.Kind) (stretch : List Char)
    (offset : Nat) : (scan.prepend kind stretch offset).stop? = scan.stop? := by
  unfold prepend
  split <;> rfl

/-- A scan reads the tokens from left to right, and stops where no token can be read. -/
theorem outcome_scanFrom (offset : Nat) (cs : List Char) :
    (scanFrom offset cs).outcome = leftToRightFrom offset cs := by
  fun_induction scanFrom offset cs with
  | case1 offset => rw [leftToRightFrom_nil]; rfl
  | case2 offset cs hne hclosest =>
    have hfirst := Token.readHere?_closest? cs
    rw [hclosest] at hfirst
    rw [leftToRightFrom_of_none hne hfirst.symm]
    rfl
  | case3 offset cs hne kind found hclosest hhere ih =>
    obtain ⟨hfirst, happend⟩ := Token.first?_of_closest? hclosest hhere
    have hsize : utf8Size cs - utf8Size found.rest = utf8Size found.text := by
      rw [← happend, utf8Size_append, Nat.add_sub_cancel]
    rw [Scan.outcome_prepend, ih, leftToRightFrom_of_some hfirst, hsize]
  | case4 offset cs hne kind found hclosest hskipped =>
    have hfirst := Token.readHere?_closest? cs
    rw [hclosest, Token.readHere?_of_skipped hskipped] at hfirst
    rw [leftToRightFrom_of_none hne hfirst.symm]
    rfl

/-- The tokens of a text, by the closest match at each place, are those read from left to right by
the kinds in order. -/
theorem tokenize_eq_ok_iff {text : String} {tokens : List Token} :
    tokenize text = .ok tokens ↔ leftToRight text = .ok tokens := by
  have houtcome : (scan text).outcome = leftToRight text := outcome_scanFrom 0 text.toList
  rw [← houtcome]
  unfold tokenize Scan.result Scan.outcome
  cases (scan text).stop? <;> simp

/-- A text is refused at a byte exactly when no token can be read there from left to right. -/
theorem tokenize_eq_error_iff {text : String} {offset : Nat} :
    (∃ fragment, tokenize text = .error (.unrecognised fragment offset)) ↔
      leftToRight text = .error offset := by
  have houtcome : (scan text).outcome = leftToRight text := outcome_scanFrom 0 text.toList
  rw [← houtcome]
  unfold tokenize Scan.result Scan.outcome
  cases (scan text).stop? <;> simp

/-- The tokens of a text are those read from left to right, and a text without tokens is refused at
the byte at which no token can be read. -/
theorem tokenize_eq_leftToRight (text : String) :
    (∀ tokens, tokenize text = .ok tokens ↔ leftToRight text = .ok tokens) ∧
      ∀ offset, (∃ fragment, tokenize text = .error (.unrecognised fragment offset)) ↔
        leftToRight text = .error offset :=
  ⟨fun _ => tokenize_eq_ok_iff, fun _ => tokenize_eq_error_iff⟩

end PredicateExpr
