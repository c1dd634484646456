import PredicateExpr.Proofs.Token.Scanning
import PredicateExpr.Proofs.Token.Standing

/-!
# Blanks between tokens

No token lies on both sides of a seam (`Seam.apart`), so that blanks put in there stand behind a
token, in front of one, or among separators. Among separators they are passed over, and only the
token that ends right in front of them could be read in another way. The run along the text keeps
what has been read of it and comes to the place of the blanks in one of two ways: with nothing but
separators left in front of them, or behind a token (`Reads.scanFrom_insert`).
-/

namespace PredicateExpr

open Text
open Token.Kind (isSeparating)

/-! ## Seams -/

section

variable {text : String} {tokens : List Token}

/-- Of two tokens of a text, one ends before the other starts. -/
theorem stop_le_offset_of_mem (h : tokenize text = .ok tokens) :
    ∀ token ∈ tokens, ∀ other ∈ tokens, token = other ∨
      token.stop text.toList ≤ other.offset ∨ other.stop text.toList ≤ token.offset := by
  have hlaid := laidOut_of_leftToRightFrom (tokenize_eq_ok_iff.mp h)
  have hordered := hlaid.pairwise_offset (dropBytes?_zero text.toList)
  have hahead : tokens.Pairwise fun token other => token = other ∨
      token.stop text.toList ≤ other.offset ∨ other.stop text.toList ≤ token.offset :=
    hordered.imp fun hle => .inr (.inl hle.2)
  have hback : tokens.Pairwise fun other token => token = other ∨
      token.stop text.toList ≤ other.offset ∨ other.stop text.toList ≤ token.offset :=
    hordered.imp fun hle => .inr (.inr hle.2)
  intro token hmem other hother
  exact hahead.forall_of_forall_of_flip (fun _ _ => .inl rfl) hback hmem hother

/-- No token lies on both sides of a seam. -/
theorem Seam.apart {p : Nat} (h : tokenize text = .ok tokens)
    (hseam : Seam text.toList tokens p) :
    ∀ token ∈ tokens, p ≤ token.offset ∨ token.stop text.toList ≤ p := by
  intro token hmem
  cases hseam with
  | start => exact .inl (Nat.zero_le _)
  | finish =>
    obtain ⟨rest, hrest⟩ := (standsIn_of_tokenize h token hmem).here
    rw [utf8Size_of_dropBytes? hrest, utf8Size_append, Token.stop]
    exact .inr (by omega)
  | @offset other hother =>
    have hstop : other.offset ≤ other.stop text.toList := Nat.le_add_right _ _
    rcases stop_le_offset_of_mem h token hmem other hother with rfl | hbefore | hbehind
    · exact .inl (Nat.le_refl _)
    · exact .inr hbefore
    · exact .inl (Nat.le_trans hstop hbehind)
  | @stop other hother =>
    have hstop : other.offset ≤ other.stop text.toList := Nat.le_add_right _ _
    rcases stop_le_offset_of_mem h token hmem other hother with rfl | hbefore | hbehind
    · exact .inr (Nat.le_refl _)
    · exact .inr (Nat.le_trans hbefore hstop)
    · exact .inl hbehind
  | separator _ houtside => exact (houtside token hmem).imp Nat.le_of_lt id

/-- Every token of a text ends behind its beginning. -/
theorem lt_stop_of_mem (h : tokenize text = .ok tokens) :
    ∀ token ∈ tokens, token.offset < token.stop text.toList := by
  intro token hmem
  have hspan := (standsIn_of_tokenize h token hmem).span_ne
  exact Nat.lt_add_of_pos_right (utf8Size_pos hspan)

end

/-! ## Tokens on either side of the blanks -/

section

variable {cs : List Char} {token : Token} {p n : Nat}

/-- A token behind the blanks is moved. -/
theorem Token.spaced_of_le (hp : p ≤ token.offset) (hstop : token.offset < token.stop cs) :
    token.spaced cs p n = token.shift n := by
  have hne : token.stop cs ≠ p := by omega
  simp [spaced, shift, hne, hp]

/-- A token in front of the blanks stays where it is. -/
theorem Token.spaced_of_lt (hp : token.offset < p) :
    token.spaced cs p n = { token with kind := (token.spaced cs p n).kind } := by
  have hnot : ¬p ≤ token.offset := by omega
  simp [spaced, hnot]

end

/-- A token of some extent is read in front of the blanks as `Token.spaced` says, be they right
behind it or further on. -/
theorem Token.Extent.insert (token : Token) {text stretch content between blanks after : List Char}
    {p : Nat} (h : Token.Extent token.kind stretch content (between ++ after))
    (htoken : token.text = String.ofList content) (hkind : token.kind ≠ .separator)
    (hpoint : (between ++ after).head? ≠ some '.')
    (hp : token.stop text + utf8Size between = p) (hne : blanks ≠ [])
    (hblanks : ∀ c ∈ blanks, isBlank c = true) :
    Token.Extent (token.spaced text p (utf8Size blanks)).kind stretch content
      (between ++ (blanks ++ after)) := by
  cases between with
  | nil =>
    obtain ⟨b, behind, rfl⟩ := List.exists_cons_of_ne_nil hne
    have hblank := h.before_blank hkind (hblanks b List.mem_cons_self) (behind ++ after)
    rw [← htoken] at hblank
    simpa [spaced, ← hp] using hblank
  | cons c between =>
    have hpos := utf8Size_pos (List.cons_ne_nil c between)
    have hstop : token.stop text ≠ p := by omega
    have hsame : Token.Extent token.kind stretch content (c :: between ++ (blanks ++ after)) :=
      h.of_head?_eq rfl hpoint
    simpa [spaced, hstop] using hsame

/-- A token that is no separator does not become one by blanks behind it. -/
theorem Token.kind_spaced_ne {token : Token} (h : token.kind ≠ .separator) (cs : List Char)
    (p n : Nat) : (token.spaced cs p n).kind ≠ .separator := by
  unfold spaced
  dsimp only
  split
  · exact Kind.noConfusion
  · exact h

/-! ## Blanks put in -/

section

variable {text blanks after : List Char} {p : Nat}

/-- A text that is read is laid out. -/
theorem Reads.laidOut {cs : List Char} {offset : Nat} {tokens : List Token}
    (h : Reads offset cs tokens) : LaidOut offset cs tokens := by
  refine laidOut_of_leftToRightFrom ?_
  rw [← outcome_scanFrom, h.scanFrom_eq]
  rfl

/-- Blanks in front of tokens move them. -/
theorem Reads.scanFrom_blanks {tokens : List Token} (h : Reads p after tokens)
    (hblanks : ∀ c ∈ blanks, isBlank c = true)
    (hstop : ∀ token ∈ tokens, token.offset < token.stop text) :
    scanFrom p (blanks ++ after) =
      ⟨tokens.map (Token.spaced text p (utf8Size blanks)), none⟩ := by
  have hseparating : ∀ c ∈ blanks, isSeparating c = true := by
    intro c hc
    rw [isSeparating, hblanks c hc, Bool.true_or]
  have hmoved : tokens.map (Token.spaced text p (utf8Size blanks)) =
      tokens.map (Token.shift (utf8Size blanks)) := by
    refine List.map_congr_left fun token hmem => ?_
    exact Token.spaced_of_le (h.laidOut.le_offset token hmem) (hstop token hmem)
  rw [scanFrom_separators hseparating, scanFrom_add, h.scanFrom_eq, hmoved]
  rfl

/-- Separators at the beginning of a text are not among its tokens. -/
theorem Reads.behind_gap {gap rest : List Char} {offset : Nat} {tokens : List Token}
    (h : Reads offset (gap ++ rest) tokens) (hgap : ∀ c ∈ gap, isSeparating c = true) :
    Reads (offset + utf8Size gap) rest tokens := by
  have hscan := h.scanFrom_eq
  rw [scanFrom_separators hgap] at hscan
  have hreads := reads_of_scanFrom (congrArg Scan.stop? hscan)
  rwa [hscan] at hreads

/-- Blanks that are put in behind a token or among separators change nothing but what `Token.spaced`
says. -/
theorem Reads.scanFrom_insert {cs before : List Char} {offset : Nat} {tokens : List Token}
    (hne : blanks ≠ []) (hblanks : ∀ c ∈ blanks, isBlank c = true) (h : Reads offset cs tokens)
    (htext : dropBytes? offset text = some cs) (hcs : before ++ after = cs)
    (hp : offset + utf8Size before = p)
    (hapart : ∀ token ∈ tokens, p ≤ token.offset ∨ token.stop text ≤ p)
    (hstop : ∀ token ∈ tokens, token.offset < token.stop text) :
    scanFrom offset (before ++ (blanks ++ after)) =
      ⟨tokens.map (Token.spaced text p (utf8Size blanks)), none⟩ := by
  induction h generalizing before with
  | nil =>
    obtain ⟨rfl, rfl⟩ := List.append_eq_nil_iff.mp hcs
    exact Reads.nil.scanFrom_blanks hblanks hstop
  | @separators offset gap rest tokens hrun hreads ih =>
    rcases Nat.le_total (utf8Size gap) (utf8Size before) with hle | hle
    · obtain ⟨between, rfl, hrest⟩ := exists_between hcs hle
      rw [utf8Size_append] at hp
      have hinsert := ih (dropBytes?_add htext) hrest.symm (by omega) hapart hstop
      rw [List.append_assoc, scanFrom_separators hrun.all, hinsert]
    · -- the blanks are put in among these separators
      obtain ⟨left, rfl, rfl⟩ := exists_between hcs.symm hle
      have hgap : ∀ c ∈ before, isSeparating c = true :=
        fun c hc => hrun.all c (List.mem_append_left _ hc)
      have hwhole := Reads.separators hrun hreads
      rw [List.append_assoc] at hwhole
      have hafter := hwhole.behind_gap hgap
      rw [hp] at hafter
      rw [scanFrom_separators hgap, hp, hafter.scanFrom_blanks hblanks hstop]
  | @token kind offset stretch content rest tokens hextent hkind hreads ih =>
    rw [List.forall_mem_cons] at hapart hstop
    have hspan := LaidOut.span_eq htext (hextent.spanAt_eq offset)
    have hside : p ≤ offset ∨ offset + utf8Size stretch ≤ p := by
      rw [← hspan]
      exact hapart.1
    rcases hside with hle | hle
    · -- the blanks are put in right in front of the token
      have hbefore : before = [] := by
        by_contra hbefore
        have hpos := utf8Size_pos hbefore
        omega
      subst hbefore hp
      have hafter := Reads.token hextent hkind hreads
      rw [← hcs, List.nil_append] at hafter
      exact hafter.scanFrom_blanks hblanks (List.forall_mem_cons.mpr hstop)
    · obtain ⟨between, rfl, rfl⟩ := exists_between hcs (by omega)
      rw [utf8Size_append, ← Nat.add_assoc] at hp
      have hinsert := ih (dropBytes?_add htext) rfl hp hapart.2 hstop.2
      rw [← hspan] at hp
      have hinserted := hextent.insert ⟨kind, String.ofList content, offset⟩ rfl hkind
        hreads.head?_ne hp hne hblanks
      have hpos := utf8Size_pos hextent.ne_nil
      have hbefore : offset < p := by omega
      rw [List.append_assoc, scanFrom_of_token hinserted (Token.kind_spaced_ne hkind _ _ _),
        hinsert, List.map_cons, Token.spaced_of_lt hbefore]
      rfl

end

/-! ## Blanks and tokens -/

/-- Blanks at a seam of a text change nothing about its tokens but where they start, save that a
word right in front of the blanks becomes an operator if it is spelled like one. -/
theorem tokenize_insert_blanks {before blanks after : String} {tokens : List Token}
    (h : tokenize (before ++ after) = .ok tokens)
    (hseam : Seam (before ++ after).toList tokens (utf8Size before.toList))
    (hne : blanks ≠ "") (hblanks : blanks.toList.all isBlank = true) :
    tokenize (before ++ blanks ++ after) =
      .ok (tokens.map (Token.spaced (before ++ after).toList (utf8Size before.toList)
        (utf8Size blanks.toList))) := by
  have hne' : blanks.toList ≠ [] := by
    intro hnil
    exact hne (String.toList_inj.mp (by rw [hnil]; rfl))
  have hinsert := (reads_of_tokenize h).scanFrom_insert hne' (List.all_eq_true.mp hblanks)
    (dropBytes?_zero _) String.toList_append.symm (Nat.zero_add _)
    (hseam.apart h) (lt_stop_of_mem h)
  refine Scan.result_eq_ok_iff.mpr ?_
  rw [scan, String.toList_append, String.toList_append, List.append_assoc]
  exact hinsert

/-- A blank of three bytes between a word and a bracket: the word is an operator now, while the
other word that is spelled like one stays what it is. -/
theorem tokenize_insert_blanks_of_word :
    tokenize ("not" ++ "('é'),or") = .ok [⟨.word, "not", 0⟩, ⟨.opener, "(", 3⟩,
        ⟨.literal, "é", 4⟩, ⟨.closer, ")", 8⟩, ⟨.word, "or", 10⟩] ∧
      tokenize ("not" ++ "\u3000" ++ "('é'),or") = .ok [⟨.operator, "not", 0⟩, ⟨.opener, "(", 6⟩,
        ⟨.literal, "é", 7⟩, ⟨.closer, ")", 11⟩, ⟨.word, "or", 13⟩] := by
  have htokens : tokenize ("not" ++ "('é'),or") = .ok [⟨.word, "not", 0⟩, ⟨.opener, "(", 3⟩,
      ⟨.literal, "é", 4⟩, ⟨.closer, ")", 8⟩, ⟨.word, "or", 10⟩] := by decide +kernel
  have hstop : Token.stop ⟨.word, "not", 0⟩ ("not" ++ "('é'),or").toList =
      utf8Size "not".toList := by decide +kernel
  have hseam : Seam ("not" ++ "('é'),or").toList [⟨.word, "not", 0⟩, ⟨.opener, "(", 3⟩,
      ⟨.literal, "é", 4⟩, ⟨.closer, ")", 8⟩, ⟨.word, "or", 10⟩] (utf8Size "not".toList) := by
    rw [← hstop]
    exact .stop List.mem_cons_self
  have hne : "\u3000" ≠ "" := by decide
  have hspaced := tokenize_insert_blanks htokens hseam hne (by decide +kernel)
  refine ⟨htokens, hspaced.trans ?_⟩
  decide +kernel

end PredicateExpr
