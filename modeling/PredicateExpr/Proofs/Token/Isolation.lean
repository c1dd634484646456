import PredicateExpr.Proofs.Token.Scanning
import PredicateExpr.Proofs.Token.Standing

/-!
# Stretches that belong to no token

A scan gets stuck in front of a gap: the characters up to the first place at which a token begins.
The closest match is the match there, so that a gap is passed by in one piece
(`Token.skipped_closest?`), and what is left of a gap behind some of its characters is a gap again
(`Token.gap_of_append`). What stands in front of the gap is read without it as it is read with it,
for a token looks no further than at the next character, and none that begins a gap is a blank
(`Token.Extent.at_end`).
-/

namespace PredicateExpr

open Text
open Token.Kind (isSeparating)

namespace Token

/-! ## Gaps -/

/-- The characters in front of the first place of a text at which a token begins. -/
def gap : List Char → List Char
  | [] => []
  | c :: cs => if (first? (c :: cs)).isSome then [] else c :: gap cs

variable {c : Char} {cs : List Char} {kind : Kind}

/-- There is no gap in front of a token. -/
theorem gap_of_isSome (h : (first? cs).isSome = true) : gap cs = [] := by
  cases cs with
  | nil => rfl
  | cons c cs => exact if_pos h

/-- A character at which no token begins belongs to the gap. -/
theorem gap_cons (h : first? (c :: cs) = none) : gap (c :: cs) = c :: gap cs := by
  rw [gap, if_neg (by simp [h])]

/-- No token begins where a gap does. -/
theorem first?_of_gap_ne (h : gap cs ≠ []) : first? cs = none := by
  by_contra hsome
  exact h (gap_of_isSome (Option.isSome_iff_ne_none.mpr hsome))

/-- A gap is a beginning of its text, and no gap follows it. -/
theorem exists_gap_append (cs : List Char) : ∃ rest, gap cs ++ rest = cs ∧ gap rest = [] := by
  induction cs with
  | nil => exact ⟨[], rfl, rfl⟩
  | cons c cs ih =>
    cases hfirst : first? (c :: cs) with
    | none =>
      obtain ⟨rest, happend, hrest⟩ := ih
      refine ⟨rest, ?_, hrest⟩
      rw [gap_cons hfirst, List.cons_append, happend]
    | some found =>
      have hgap : gap (c :: cs) = [] := gap_of_isSome (by rw [hfirst]; rfl)
      exact ⟨c :: cs, by rw [hgap]; rfl, hgap⟩

/-- What is left of a gap is the gap of the text that is left. -/
theorem gap_of_append {before after : List Char} (h : gap (before ++ cs) = before ++ after) :
    gap cs = after := by
  induction before with
  | nil => exact h
  | cons c before ih =>
    have hne : gap (c :: (before ++ cs)) ≠ [] := by
      rw [← List.cons_append, h]
      exact List.cons_ne_nil _ _
    rw [List.cons_append, gap_cons (first?_of_gap_ne hne)] at h
    exact ih (List.cons.inj h).2

/-- At a boundary inside a gap stands a gap, too: what the first one has left there. -/
theorem gap_of_dropBytes? {before behind here : List Char} {p : Nat}
    (hle : utf8Size before ≤ p) (hlt : p < utf8Size before + utf8Size (gap behind))
    (hhere : dropBytes? p (before ++ behind) = some here) :
    dropBytes? (p - utf8Size before) (gap behind) = some (gap here) ∧ gap here ≠ [] := by
  obtain ⟨rest, hrest, -⟩ := exists_gap_append behind
  obtain ⟨front, hfront, rfl⟩ := dropBytes?_eq_some_iff.mp hhere
  obtain ⟨passed, rfl, rfl⟩ := exists_between hfront hle
  rw [utf8Size_append] at hlt
  obtain ⟨left, hleft, rfl⟩ := exists_between hrest (by omega)
  have hgap : gap (left ++ rest) = left := gap_of_append hleft
  rw [hgap, hleft, utf8Size_append, Nat.add_sub_cancel_left]
  refine ⟨dropBytes?_eq_some_iff.mpr ⟨passed, rfl, rfl⟩, ?_⟩
  rintro rfl
  rw [hleft, List.append_nil] at hlt
  exact Nat.lt_irrefl _ hlt

/-! ## The closest match behind a gap -/

/-- A match behind one character more. -/
def skip (c : Char) (best : Kind × Pattern.Match) : Kind × Pattern.Match :=
  (best.1, { best.2 with skipped := c :: best.2.skipped })

/-- Where no token of a kind begins, the first match of this kind stands further on. -/
theorem find?_cons (h : kind.first? (c :: cs) = none) :
    kind.pattern.find? (c :: cs) =
      (kind.pattern.find? cs).map fun later => { later with skipped := c :: later.skipped } := by
  have hstart : kind.pattern.matchStart? (c :: cs) = none := by
    rw [← Option.map_eq_none_iff, kind.map_matchStart?, h]
  rw [Pattern.find?, hstart]

/-- Which of two matches is nearer does not depend on a character in front of both. -/
theorem nearer_skip (h : kind.first? (c :: cs) = none) (best : Option (Kind × Pattern.Match)) :
    nearer (c :: cs) (best.map (skip c)) kind = (nearer cs best kind).map (skip c) := by
  unfold nearer
  rw [find?_cons h]
  cases kind.pattern.find? cs with
  | none => cases best <;> simp
  | some found =>
    cases best with
    | none => simp [skip]
    | some current =>
      by_cases hhere : current.2.skipped = []
      · simp [skip, hhere]
      · by_cases hnearer : found.skipped.length < current.2.skipped.length
        · simp [skip, hhere, hnearer]
        · simp [skip, hhere, hnearer]

/-- Where no token begins, the closest match is the one of the text behind the first character. -/
theorem closest?_cons (h : first? (c :: cs) = none) :
    closest? (c :: cs) = (closest? cs).map (skip c) := by
  have hnone : ∀ kind ∈ Kind.all, kind.first? (c :: cs) = none := by
    intro kind hkind
    exact Option.map_eq_none_iff.mp (List.findSome?_eq_none_iff.mp h kind hkind)
  have hfold : ∀ (kinds : List Kind) (best : Option (Kind × Pattern.Match)),
      (∀ kind ∈ kinds, kind.first? (c :: cs) = none) →
      kinds.foldl (nearer (c :: cs)) (best.map (skip c)) =
        (kinds.foldl (nearer cs) best).map (skip c) := by
    intro kinds
    induction kinds with
    | nil => exact fun best _ => rfl
    | cons kind kinds ih =>
      intro best hkinds
      rw [List.forall_mem_cons] at hkinds
      rw [List.foldl_cons, List.foldl_cons, nearer_skip hkinds.1, ih _ hkinds.2]
  exact hfold Kind.all none hnone

/-- The closest match passes by just the gap, and where there is none the gap is all of the text. -/
theorem skipped_closest? (cs : List Char) :
    ((closest? cs).map (·.2.skipped)).getD cs = gap cs := by
  induction cs with
  | nil => rfl
  | cons c cs ih =>
    cases hfirst : first? (c :: cs) with
    | none =>
      rw [gap_cons hfirst, closest?_cons hfirst, ← ih]
      cases closest? cs <;> rfl
    | some found =>
      obtain ⟨kind, text, rest⟩ := found
      obtain ⟨stretch, happend, hextent⟩ := first?_eq_some_iff.mp hfirst
      rw [gap_of_isSome (by rw [hfirst]; rfl), ← happend, hextent.closest?_eq]
      rfl

/-! ## Tokens in front of a gap -/

section

variable {accepts : Char → Bool} {stretch text rest : List Char}

/-- A run is one at the end of a text, too. -/
theorem Run.at_end (h : Run accepts stretch rest) : Run accepts stretch [] :=
  ⟨h.ne, h.all, rfl⟩

/-- Digits and their fraction go as far at the end of a text. -/
theorem Decimal.at_end (h : Decimal stretch rest) : Decimal stretch [] := by
  cases h with
  | whole hdigits _ => exact .whole hdigits.at_end nofun
  | fraction hdigits hfraction => exact .fraction hdigits hfraction.at_end

/-- A token that no blank follows keeps its extent at the end of a text. -/
theorem Extent.at_end (h : Extent kind stretch text rest)
    (hblank : rest.head?.any isBlank = false) : Extent kind stretch text [] := by
  cases h with
  | opener hc => exact .opener hc
  | closer hc => exact .closer hc
  | separator hrun => exact .separator hrun.at_end
  | unequal => exact .unequal
  | symbol hc _ => exact .symbol hc nofun
  | operatorWord _ hbefore =>
    rw [hblank] at hbefore
    cases hbefore
  | quoted hquote => exact .quoted hquote
  | number hdecimal => exact .number hdecimal.at_end
  | negative hdecimal => exact .negative hdecimal.at_end
  | word hrun _ => exact .word hrun.at_end nofun

/-- No gap begins with a blank. -/
theorem head?_of_gap_ne (h : gap cs ≠ []) : cs.head?.any isBlank = false := by
  cases cs with
  | nil => rfl
  | cons c cs =>
    rw [List.head?_cons, Option.any_some, Bool.eq_false_iff]
    intro hblank
    have hseparating : isSeparating c = true := by rw [isSeparating, hblank, Bool.true_or]
    have hfirst := first?_of_gap_ne h
    rw [first?_separating hseparating] at hfirst
    cases hfirst

/-- In front of a gap a token has the extent that it has without the gap, if what stands between the
two is read. -/
theorem Extent.without_gap {before behind : List Char} {offset : Nat} {tokens : List Token}
    (h : Extent kind stretch text (before ++ behind)) (hgap : gap behind ≠ [])
    (hreads : Reads offset before tokens) : Extent kind stretch text before := by
  cases hbefore : before with
  | nil =>
    rw [hbefore] at h
    exact h.at_end (head?_of_gap_ne hgap)
  | cons c before' =>
    have hpoint := hreads.head?_ne
    rw [hbefore] at h hpoint
    exact h.of_head?_eq rfl hpoint

end

end Token

/-! ## Scans that get stuck -/

section

variable {offset : Nat} {cs : List Char} {stop : Unrecognised}

/-- Nothing is read of a text that begins with a gap. -/
theorem scanFrom_of_gap (h : Token.gap cs ≠ []) (offset : Nat) :
    scanFrom offset cs = ⟨[], some ⟨Token.gap cs, offset⟩⟩ := by
  have hne : cs ≠ [] := by
    rintro rfl
    exact h rfl
  have hskipped := Token.skipped_closest? cs
  rw [scanFrom_of_ne hne]
  cases hclosest : Token.closest? cs with
  | none =>
    rw [hclosest, Option.map_none, Option.getD_none] at hskipped
    rw [← hskipped]
  | some best =>
    rw [hclosest, Option.map_some, Option.getD_some] at hskipped
    dsimp only
    rw [hskipped, if_neg h]

/-- A scan that gets stuck has read what stands in front of a gap, and reports the gap. -/
theorem exists_gap_of_stop? (h : (scanFrom offset cs).stop? = some stop) :
    ∃ before behind, before ++ behind = cs ∧ Token.gap behind ≠ [] ∧
      stop = ⟨Token.gap behind, offset + utf8Size before⟩ ∧
        Reads offset before (scanFrom offset cs).tokens := by
  fun_induction scanFrom offset cs with
  | case1 => cases h
  | case2 offset cs hne hclosest =>
    have hgap : Token.gap cs = cs := by
      rw [← Token.skipped_closest?, hclosest]
      rfl
    cases h
    exact ⟨[], cs, rfl, by rwa [hgap], by rw [hgap]; rfl, .nil⟩
  | case3 offset cs hne kind found hclosest hhere ih =>
    obtain ⟨hextent, rfl⟩ := Token.extent_of_closest? hclosest hhere
    rw [Scan.stop?_prepend] at h
    obtain ⟨before, behind, hrest, hgap, rfl, hreads⟩ := ih h
    rw [← hrest] at hextent
    refine ⟨found.text ++ before, behind, ?_, hgap, ?_, ?_⟩
    · rw [List.append_assoc, hrest]
    · rw [utf8Size_append, Nat.add_assoc]
    · exact .prepend (hextent.without_gap hgap hreads) hreads
  | case4 offset cs hne kind found hclosest hskipped =>
    have hgap : Token.gap cs = found.skipped := by
      rw [← Token.skipped_closest?, hclosest]
      rfl
    cases h
    exact ⟨[], cs, rfl, by rwa [hgap], by rw [hgap]; rfl, .nil⟩

/-- A text that does not begin with a gap is read further than to its beginning. -/
theorem lt_offset_of_stop? (hgap : Token.gap cs = [])
    (h : (scanFrom offset cs).stop? = some stop) : offset < stop.offset := by
  obtain ⟨before, behind, happend, hbehind, rfl, -⟩ := exists_gap_of_stop? h
  have hne : before ≠ [] := by
    rintro rfl
    rw [List.nil_append] at happend
    rw [happend] at hbehind
    exact hbehind hgap
  exact Nat.lt_add_of_pos_right (utf8Size_pos hne)

/-! ## The stretch that is reported -/

/-- A text that is read has its tokens. -/
theorem tokenize_of_reads {tokens : List Token} (h : Reads 0 cs tokens) :
    tokenize (String.ofList cs) = .ok tokens := by
  rw [tokenize, Scan.result_eq_ok_iff, scan, String.toList_ofList]
  exact h.scanFrom_eq

/-- A text at which its scan stops is refused for what the scan found there. -/
theorem tokenize_of_stop? {text : String}
    (h : (scan text).stop? = some stop) :
    tokenize text = .error (.unrecognised (String.ofList stop.fragment) stop.offset) := by
  rw [tokenize, Scan.result, h]

/-- What a scan reads is the text, or else what stands in front of the byte that is reported. -/
theorem tokenize_scan_tokens (text : String) :
    tokenize text = .ok (scan text).tokens ∨
      ∃ fragment before behind, text = before ++ behind ∧
        tokenize text = .error (.unrecognised fragment (utf8Size before.toList)) ∧
        tokenize before = .ok (scan text).tokens := by
  cases hresult : tokenize text with
  | ok tokens => exact .inl (congrArg Except.ok (tokens_of_tokenize hresult).symm)
  | error e =>
    obtain ⟨stop, hstop, rfl⟩ := exists_stop_of_tokenize hresult
    obtain ⟨before, behind, happend, -, rfl, hreads⟩ := exists_gap_of_stop? hstop
    refine .inr ⟨String.ofList (Token.gap behind), String.ofList before, String.ofList behind, ?_,
      ?_, ?_⟩
    · rw [← String.toList_inj]
      simp [happend]
    · rw [String.toList_ofList, Nat.zero_add]
    · exact tokenize_of_reads hreads

/-- A text that begins with a gap is refused at once, for the gap. -/
theorem tokenize_of_gap (h : Token.gap cs ≠ []) :
    tokenize (String.ofList cs) = .error (.unrecognised (String.ofList (Token.gap cs)) 0) := by
  have hstop : (scan (String.ofList cs)).stop? = some ⟨Token.gap cs, 0⟩ := by
    rw [scan, String.toList_ofList, scanFrom_of_gap h]
  exact tokenize_of_stop? hstop

/-- A text that does not begin with a gap is not refused at once. -/
theorem tokenize_ne_of_gap (h : Token.gap cs = []) (fragment : String) :
    tokenize (String.ofList cs) ≠ .error (.unrecognised fragment 0) := by
  intro hrefused
  obtain ⟨stop, hstop, herror⟩ := exists_stop_of_tokenize hrefused
  rw [scan, String.toList_ofList] at hstop
  have hlt := lt_offset_of_stop? h hstop
  injection herror with _ hoffset
  omega

/-- A text is refused for just the stretch that belongs to no token. There is something of it, and
it stands in the text at its byte. What stands in front of it is read. From every boundary inside it
the text is refused at once, for what is left of the stretch, and behind it the text is not refused
at once. -/
theorem tokenize_isolates {text fragment : String} {offset : Nat}
    (h : tokenize text = .error (.unrecognised fragment offset)) :
    fragment ≠ "" ∧ ∃ before behind, text = before ++ fragment ++ behind ∧
      utf8Size before.toList = offset ∧ tokenize before = .ok (scan text).tokens ∧
      (∀ p here, offset ≤ p → p < offset + utf8Size fragment.toList →
        dropBytes? p text.toList = some here →
        ∃ left, dropBytes? (p - offset) fragment.toList = some left ∧
          tokenize (String.ofList here) = .error (.unrecognised (String.ofList left) 0)) ∧
      ∀ left, tokenize behind ≠ .error (.unrecognised left 0) := by
  obtain ⟨stop, hstop, herror⟩ := exists_stop_of_tokenize h
  obtain ⟨before, suffix, happend, hne, rfl, hreads⟩ := exists_gap_of_stop? hstop
  obtain ⟨rest, hrest, hlast⟩ := Token.exists_gap_append suffix
  cases herror
  rw [Nat.zero_add, String.toList_ofList, ← happend]
  refine ⟨?_, String.ofList before, String.ofList rest, ?_, ?_, ?_, ?_, tokenize_ne_of_gap hlast⟩
  · intro hempty
    exact hne (String.ofList_inj.mp hempty)
  · rw [← String.toList_inj]
    simp [hrest, happend]
  · rw [String.toList_ofList]
  · exact tokenize_of_reads hreads
  · intro p here hle hlt hhere
    obtain ⟨hleft, hgap⟩ := Token.gap_of_dropBytes? hle hlt hhere
    exact ⟨Token.gap here, hleft, tokenize_of_gap hgap⟩

/-- An unclosed quote behind a character that begins no token: both are reported together, and from
the quote on the quote is. The word behind them is a word still. -/
theorem tokenize_isolates_of_quote :
    tokenize "a é'or" = .error (.unrecognised "é'" 2) ∧
      tokenize "'or" = .error (.unrecognised "'" 0) := by
  have hrefused : tokenize "a é'or" = .error (.unrecognised "é'" 2) := by decide +kernel
  have hhere : dropBytes? 4 "a é'or".toList = some "'or".toList := by decide +kernel
  have hsize : 4 < 2 + utf8Size "é'".toList := by decide +kernel
  obtain ⟨_, _, _, _, _, _, hinside, _⟩ := tokenize_isolates hrefused
  obtain ⟨left, hleft, hquote⟩ := hinside 4 _ (by omega) hsize hhere
  have hdrop : dropBytes? (4 - 2) "é'".toList = some "'".toList := by decide +kernel
  rw [hdrop, Option.some_inj] at hleft
  rw [← hleft, String.ofList_toList, String.ofList_toList] at hquote
  exact ⟨hrefused, hquote⟩

end

end PredicateExpr
