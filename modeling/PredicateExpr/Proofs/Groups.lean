import PredicateExpr.Proofs.Nesting.Enclosing

/-!
# Groups in an expression

A group is read for itself: what its tokens are, or what is wrong with them, depends neither on the
levels around them nor on what follows. So brackets around a whole expression, or around all that a
group holds, make no difference (`parse_redundant_group`); an error inside a group comes before any
other that the tokens behind it or the levels around it might give rise to (`parse_group_error`);
and behind a closing bracket that closes nothing no token is looked at (`parse_unmatched_closer`).
-/

namespace PredicateExpr

open Grammar (Balanced NestsWithin surplus)

variable {opening closing : Token} {pre ts us vs post : List Token} {e : CompileError}

/-! ## Tokens in two parts -/

/-- Two continuations make no difference if they make none to the levels that are open behind the
tokens before them. -/
theorem parse_append_congr
    (h : ∀ nesting, Nesting.start.read 0 ts = .ok (nesting, []) →
      nesting.read 0 us = nesting.read 0 vs) :
    parse (ts ++ us) = parse (ts ++ vs) := by
  unfold parse readLevel
  rw [Nesting.read_append, Nesting.read_append]
  cases hread : Nesting.start.read 0 ts with
  | error e => rfl
  | ok found =>
    obtain ⟨nesting, rest⟩ := found
    cases rest with
    | nil => simp only [ok_bind, h nesting hread]
    | cons stray rest =>
      simp only [ok_bind]
      cases nesting.close <;> rfl

/-- Tokens with which an expression begins are all read. -/
theorem exists_read_of_parse_append {t : Tree Atom} (h : parse (ts ++ us) = .ok t) :
    ∃ nesting, Nesting.start.read 0 ts = .ok (nesting, []) := by
  unfold parse readLevel at h
  rw [Nesting.read_append] at h
  cases hread : Nesting.start.read 0 ts with
  | error e =>
    rw [hread] at h
    cases h
  | ok found =>
    obtain ⟨nesting, rest⟩ := found
    cases rest with
    | nil => exact ⟨nesting, rfl⟩
    | cons stray rest =>
      rw [hread] at h
      cases hclose : nesting.close with
      | error e =>
        simp only [ok_bind, hclose] at h
        cases h
      | ok group =>
        simp only [ok_bind, hclose] at h
        cases h

/-- What is wrong behind tokens that are read is wrong with all tokens. -/
theorem parse_append_of_error {nesting : Nesting}
    (hts : Nesting.start.read 0 ts = .ok (nesting, [])) (hus : nesting.read 0 us = .error e) :
    parse (ts ++ us) = .error e := by
  rw [parse, readLevel, Nesting.read_append_of_ok hts, hus]
  rfl

/-- Balanced tokens parse to the expression that their level is. -/
theorem parse_of_balanced (hts : Balanced ts) :
    parse ts = readLevel 0 ts >>= fun found => .ok found.1.tree := by
  rw [parse, readLevel_of_balanced hts]
  cases (Nesting.start.read 0 ts >>= fun found => found.1.level.fold) <;> rfl

/-! ## Redundant groups -/

/-- A level that holds nothing but a group is what the group is. -/
theorem readLevel_group {n : Nat} (hopening : opening.kind = .opener)
    (hclosing : closing.kind = .closer) (hts : Balanced ts) (hnests : NestsWithin n ts)
    (hdepth : n + 1 ≤ maxDepth) : readLevel 0 (opening :: ts ++ [closing]) = readLevel 0 ts := by
  have hgroup : Nesting.start.read 0 (opening :: ts ++ [closing]) =
      readLevel 0 ts >>= fun found =>
        .ok (⟨Level.start.push (.operand ⟨found.1, opening.offset⟩), []⟩, []) :=
    Nesting.read_group hopening hclosing hts hnests (by rw [List.length_nil]; omega) []
  rw [readLevel, hgroup, readLevel_of_balanced hts]
  -- a phrase of one operand is folded to the operand
  cases (Nesting.start.read 0 ts >>= fun found => found.1.level.fold) <;> rfl

/-- A level takes no notice of a group around all that is inside another group. -/
theorem Nesting.read_redundant_group {groups n : Nat} {level : Level}
    {outer : List (Level × Nat)} {opening' closing' : Token} (hopening : opening.kind = .opener)
    (hclosing : closing.kind = .closer) (hopening' : opening'.kind = .opener)
    (hclosing' : closing'.kind = .closer) (hts : Balanced ts) (hnests : NestsWithin n ts)
    (hdepth : groups + outer.length + 2 + n ≤ maxDepth) (post : List Token) :
    read groups ⟨level, outer⟩ (opening :: opening' :: ts ++ closing' :: closing :: post) =
      read groups ⟨level, outer⟩ (opening :: ts ++ closing :: post) := by
  have hinner : Balanced (opening' :: ts ++ [closing']) := hts.group hopening' hclosing'
  have hinner' : NestsWithin (n + 1) (opening' :: ts ++ [closing']) :=
    hnests.group hts hopening' hclosing'
  have hassoc : opening :: opening' :: ts ++ closing' :: closing :: post =
      opening :: (opening' :: ts ++ [closing']) ++ closing :: post := by simp
  rw [hassoc, read_group hopening hclosing hinner hinner' (by omega),
    readLevel_group hopening' hclosing' hts hnests (by omega),
    read_group hopening hclosing hts hnests (by omega)]

/-- Brackets around balanced tokens make no difference, if the tokens are a whole expression or all
that is inside another group, and no bracket comes to stand inside too many groups. -/
theorem parse_redundant_group (hopening : opening.kind = .opener)
    (hclosing : closing.kind = .closer) (hts : Balanced ts) (hnests : NestsWithin 255 ts) :
    parse ([opening] ++ ts ++ [closing]) = parse ts ∧
      ∀ (pre post : List Token) (opening' closing' : Token), opening'.kind = .opener →
        closing'.kind = .closer → NestsWithin 255 (pre ++ [opening] ++ ts ++ [closing] ++ post) →
        parse (pre ++ [opening, opening'] ++ ts ++ [closing', closing] ++ post) =
          parse (pre ++ [opening] ++ ts ++ [closing] ++ post) := by
  have hmax : maxDepth = 256 := rfl
  constructor
  · have hgroup : [opening] ++ ts ++ [closing] = opening :: ts ++ [closing] := rfl
    rw [hgroup, parse, readLevel_group hopening hclosing hts hnests (by omega)]
    rfl
  · intro pre post opening' closing' hopening' hclosing' hwithin
    simp only [List.append_assoc, List.cons_append, List.nil_append] at hwithin ⊢
    refine parse_append_congr ?_
    rintro ⟨level, outer⟩ hread
    -- the limit leaves room for what is inside, and for one group more
    have hlength : (outer.length : Int) = surplus pre := by
      simpa [Nesting.start] using Nesting.length_outer_of_read hread
    have hinside : ∀ front, front <+: ts → outer.length + 1 + surplus front ≤ 255 := by
      intro front hfront
      obtain ⟨behind, rfl⟩ := hfront
      have hle := hwithin (pre ++ opening :: front) (by simp)
      rw [Grammar.surplus_append, Grammar.surplus_cons, Token.weight_of_opener hopening] at hle
      omega
    have hopen := hinside [] List.nil_prefix
    rw [Grammar.surplus_nil] at hopen
    have hroom : NestsWithin (254 - outer.length) ts := by
      intro front hfront
      have hle := hinside front hfront
      omega
    exact Nesting.read_redundant_group hopening hclosing hopening' hclosing' hts hroom
      (by omega) post

/-- The tokens of `b|(c)`, as they stand between two brackets. -/
def alternatives : List Token :=
  [⟨.word, "b", 4⟩, ⟨.operator, "|", 5⟩, ⟨.opener, "(", 6⟩, ⟨.word, "c", 7⟩, ⟨.closer, ")", 8⟩]

/-- Brackets of two styles around an expression, and around what is inside a group that nothing
joins to the name before it. There the error stays at the outer bracket, and the bracket that
closes nothing is not reported. -/
theorem parse_redundant_group_of_unjoined :
    parse ([⟨.opener, "(", 3⟩] ++ alternatives ++ [⟨.closer, "]", 9⟩]) =
        .ok (.join .or (.leaf ⟨"b", []⟩) (.leaf ⟨"c", []⟩)) ∧
      parse ([⟨.word, "a", 0⟩] ++ [⟨.opener, "(", 3⟩, ⟨.opener, "[", 3⟩] ++ alternatives ++
        [⟨.closer, ")", 9⟩, ⟨.closer, "]", 9⟩] ++ [⟨.closer, ")", 11⟩]) =
        .error (.missingOperator 3) := by
  have hopening : Token.kind ⟨.opener, "(", 3⟩ = .opener := rfl
  have hclosing : Token.kind ⟨.closer, "]", 9⟩ = .closer := rfl
  have hts : Balanced alternatives ∧ NestsWithin 255 alternatives := by decide
  have hwithin : NestsWithin 255 ([⟨.word, "a", 0⟩] ++ [⟨.opener, "(", 3⟩] ++ alternatives ++
      [⟨.closer, "]", 9⟩] ++ [⟨.closer, ")", 11⟩]) := by decide
  obtain ⟨hwhole, hinside⟩ := parse_redundant_group hopening hclosing hts.1 hts.2
  refine ⟨hwhole.trans (by decide), ?_⟩
  exact (hinside _ _ ⟨.opener, "[", 3⟩ ⟨.closer, ")", 9⟩ rfl rfl hwithin).trans (by decide)

/-! ## Errors inside a group -/

/-- An error inside a group behind the beginning of an expression is reported, whatever follows. -/
theorem parse_group_error {rest : List Token} {t : Tree Atom} {n : Nat}
    (hpre : parse (pre ++ rest) = .ok t) (hts : Balanced ts) (herror : parse ts = .error e)
    (hopening : opening.kind = .opener) (hclosing : closing.kind = .closer)
    (hnests : NestsWithin n ts) (hdepth : surplus pre + 1 + n ≤ 256) :
    parse (pre ++ [opening] ++ ts ++ [closing] ++ post) = .error e := by
  obtain ⟨⟨level, outer⟩, hread⟩ := exists_read_of_parse_append hpre
  have hlength : (outer.length : Int) = surplus pre := by
    simpa [Nesting.start] using Nesting.length_outer_of_read hread
  have hinside : readLevel 0 ts = .error e := by
    rw [parse_of_balanced hts] at herror
    obtain hlevel | ⟨found, _, hok⟩ := bind_eq_error_iff.mp herror
    · exact hlevel
    · cases hok
  have hmax : maxDepth = 256 := rfl
  have hgroup : Nesting.read 0 ⟨level, outer⟩ (opening :: ts ++ closing :: post) = .error e := by
    rw [Nesting.read_group hopening hclosing hts hnests (by omega), hinside, error_bind]
  have hassoc : pre ++ [opening] ++ ts ++ [closing] ++ post =
      pre ++ (opening :: ts ++ closing :: post) := by simp
  rw [hassoc]
  exact parse_append_of_error hread hgroup

/-- A group in a group, right behind a name, with an operand missing: what was read before it can be
completed, and what follows is a literal without a name. -/
theorem parse_group_error_of_adjacent :
    parse ([⟨.word, "a", 0⟩, ⟨.operator, "!=", 1⟩, ⟨.opener, "(", 3⟩, ⟨.word, "b", 4⟩] ++
        [⟨.closer, ")", 5⟩]) = .ok (.join .xor (.leaf ⟨"a", []⟩) (.leaf ⟨"b", []⟩)) ∧
      parse ([⟨.word, "a", 0⟩, ⟨.operator, "!=", 1⟩, ⟨.opener, "(", 3⟩, ⟨.word, "b", 4⟩] ++
        [⟨.opener, "(", 5⟩] ++ [⟨.operator, "&", 6⟩, ⟨.word, "c", 7⟩] ++ [⟨.closer, ")", 8⟩] ++
        [⟨.literal, "1", 9⟩]) = .error (.missingOperand (.binary .and) .left 6) := by
  have hcompleted : parse ([⟨.word, "a", 0⟩, ⟨.operator, "!=", 1⟩, ⟨.opener, "(", 3⟩,
      ⟨.word, "b", 4⟩] ++ [⟨.closer, ")", 5⟩]) =
      .ok (.join .xor (.leaf ⟨"a", []⟩) (.leaf ⟨"b", []⟩)) := by decide
  have hts : Balanced [⟨.operator, "&", 6⟩, ⟨.word, "c", 7⟩] ∧
      NestsWithin 0 [⟨.operator, "&", 6⟩, ⟨.word, "c", 7⟩] := by decide
  have herror : parse [⟨.operator, "&", 6⟩, ⟨.word, "c", 7⟩] =
      .error (.missingOperand (.binary .and) .left 6) := by decide
  exact ⟨hcompleted, parse_group_error hcompleted hts.1 herror rfl rfl hts.2 (by decide)⟩

/-! ## Closing brackets that close nothing -/

/-- A level ends in front of a closing bracket as it does at the end of the tokens. -/
theorem readLevel_append_closer (hpre : Balanced pre) (hclosing : closing.kind = .closer)
    (groups : Nat) (post : List Token) :
    readLevel groups (pre ++ closing :: post) =
      readLevel groups pre >>= fun found => .ok (found.1, closing :: post) := by
  rw [readLevel_of_balanced hpre, readLevel, Nesting.read_append]
  cases hread : Nesting.start.read groups pre with
  | error e => rfl
  | ok found =>
    obtain ⟨⟨level, outer⟩, rest⟩ := found
    obtain ⟨rfl, rfl⟩ := Nesting.eq_nil_of_read_balanced hpre hread
    have hstop : Nesting.next groups ⟨level, []⟩ closing = .ok none := by
      rw [Nesting.next, hclosing]
    simp only [ok_bind, Nesting.read_cons_of_none hstop, Nesting.close]
    cases level.fold <;> rfl

/-- The first closing bracket that closes nothing ends parsing: what was wrong before it is
reported, or else the bracket, whatever follows. -/
theorem parse_unmatched_closer (hpre : Balanced pre) (hclosing : closing.kind = .closer) :
    ∃ e, (∀ post, parse (pre ++ [closing] ++ post) = .error e) ∧
      (∀ e', parse pre = .error e' → e = e') ∧
      ∀ t, parse pre = .ok t → e = .strayCloser closing.offset := by
  have hlevel : ∀ post, parse (pre ++ [closing] ++ post) =
      readLevel 0 pre >>= fun _ => .error (.strayCloser closing.offset) := by
    intro post
    have hassoc : pre ++ [closing] ++ post = pre ++ closing :: post := by simp
    rw [hassoc, parse, readLevel_append_closer hpre hclosing]
    cases readLevel 0 pre <;> rfl
  rw [parse_of_balanced hpre]
  simp only [hlevel]
  cases readLevel 0 pre with
  | error e => exact ⟨e, fun _ => rfl, fun e' h => Except.error.inj h, nofun⟩
  | ok found => exact ⟨.strayCloser closing.offset, fun _ => rfl, nofun, fun t _ => rfl⟩

/-- A closing bracket behind an expression and one behind a group that an operator follows, with
anything behind them. -/
theorem parse_unmatched_closer_of_group :
    (Balanced alternatives ∧ ∀ post, parse (alternatives ++ [⟨.closer, "]", 9⟩] ++ post) =
        .error (.strayCloser 9)) ∧
      Balanced (alternatives ++ [⟨.operator, "&", 9⟩]) ∧
        ∀ post, parse (alternatives ++ [⟨.operator, "&", 9⟩] ++ [⟨.closer, ")", 10⟩] ++ post) =
          .error (.missingOperand (.binary .and) .right 9) := by
  have hts : Balanced alternatives ∧ Balanced (alternatives ++ [⟨.operator, "&", 9⟩]) := by decide
  have hbracket : Token.kind ⟨.closer, "]", 9⟩ = .closer := rfl
  have hbracket' : Token.kind ⟨.closer, ")", 10⟩ = .closer := rfl
  obtain ⟨e, hpost, -, hok⟩ := parse_unmatched_closer hts.1 hbracket
  obtain ⟨e', hpost', herror, -⟩ := parse_unmatched_closer hts.2 hbracket'
  have hread : parse alternatives = .ok (.join .or (.leaf ⟨"b", []⟩) (.leaf ⟨"c", []⟩)) := by
    decide
  obtain rfl := hok _ hread
  have hlacks : parse (alternatives ++ [⟨.operator, "&", 9⟩]) =
      .error (.missingOperand (.binary .and) .right 9) := by decide
  obtain rfl := herror _ hlacks
  exact ⟨⟨hts.1, hpost⟩, hts.2, hpost'⟩

end PredicateExpr
