import PredicateExpr.Proofs.Token.Scanning
import PredicateExpr.Proofs.Token.Standing

/-!
# Texts joined behind a separator

A text that ends in a separator can be read by itself. No token at its end can go on into the text
behind it, and the separators there are passed over together with those that the next text begins
with (`Reads.scanFrom_append`). So the tokens of both texts together are those of the first and
those of the second, and what the second is refused for the whole is refused for
(`tokenize_append`).
-/

namespace PredicateExpr

open Text
open Token.Kind (isSeparating)

/-- The end of a text that ends in a separator ends in one, too, or is empty. -/
theorem all_getLast?_of_append {stretch rest : List Char}
    (h : (stretch ++ rest).getLast?.all isSeparating = true) :
    rest.getLast?.all isSeparating = true := by
  cases hlast : rest.getLast? with
  | none => rfl
  | some c => rwa [List.getLast?_append, hlast, Option.some_or] at h

/-- Behind a text that is read and ends in a separator, the scan goes on as if the next text stood
there alone. -/
theorem Reads.scanFrom_append {offset : Nat} {before : List Char} {tokens : List Token}
    (h : Reads offset before tokens) (hlast : before.getLast?.all isSeparating = true)
    (after : List Char) :
    scanFrom offset (before ++ after) =
      (scanFrom (offset + utf8Size before) after).behind tokens := by
  induction h with
  | nil => rfl
  | separators hrun _ ih =>
    rw [List.append_assoc, scanFrom_separators hrun.all, ih (all_getLast?_of_append hlast),
      utf8Size_append, Nat.add_assoc]
  | @token kind offset stretch text rest tokens hextent hkind hreads ih =>
    -- the last separator stands behind this token
    have hne : rest ≠ [] := by
      rintro rfl
      obtain ⟨c, hc, hseparating⟩ := hextent.exists_last hkind
      rw [List.append_nil, hc, Option.all_some, hseparating] at hlast
      cases hlast
    have hhead : (rest ++ after).head? = rest.head? := by
      rw [List.head?_append, List.head?_eq_some_head hne, Option.some_or]
    have hextent' := hextent.of_head?_eq hhead hreads.head?_ne
    rw [List.append_assoc, scanFrom_of_token hextent' hkind,
      ih (all_getLast?_of_append hlast), utf8Size_append, Nat.add_assoc]
    rfl

/-- Behind a text that is empty or ends in a separator, another text is read as it is read alone,
save that everything in it stands further on by the size of the first text. -/
theorem tokenize_append {first second : String} {tokens : List Token}
    (hfirst : tokenize first = .ok tokens)
    (hlast : first.toList.getLast?.all isSeparating = true) :
    (∀ behind, tokenize second = .ok behind →
      tokenize (first ++ second) =
        .ok (tokens ++ behind.map (Token.shift (utf8Size first.toList)))) ∧
    ∀ error, tokenize second = .error error →
      ∃ fragment offset, error = .unrecognised fragment offset ∧
        tokenize (first ++ second) =
          .error (.unrecognised fragment (offset + utf8Size first.toList)) := by
  have hwhole : scan (first ++ second) =
      ((scan second).shift (utf8Size first.toList)).behind tokens := by
    rw [scan, String.toList_append, (reads_of_tokenize hfirst).scanFrom_append hlast, scanFrom_add]
    rfl
  constructor
  · intro behind hsecond
    rw [tokenize, hwhole, Scan.result_eq_ok_iff.mp hsecond]
    rfl
  · intro error hsecond
    obtain ⟨stop, hstop, rfl⟩ := exists_stop_of_tokenize hsecond
    refine ⟨_, _, rfl, ?_⟩
    rw [tokenize, hwhole, Scan.result, Scan.behind, Scan.shift, hstop]
    rfl

/-- A quoted text of two bytes in front of a comma and a blank, with a text behind it that is read
and with one that is not. -/
theorem tokenize_append_of_comma :
    tokenize ("'é', " ++ "not x") =
        .ok [⟨.literal, "é", 0⟩, ⟨.operator, "not", 6⟩, ⟨.word, "x", 10⟩] ∧
      tokenize ("'é', " ++ "x 'y") = .error (.unrecognised "'" 8) := by
  have hfirst : tokenize "'é', " = .ok [⟨.literal, "é", 0⟩] := by decide +kernel
  have hsecond : tokenize "not x" = .ok [⟨.operator, "not", 0⟩, ⟨.word, "x", 4⟩] := by
    decide +kernel
  have hrefused : tokenize "x 'y" = .error (.unrecognised "'" 2) := by decide +kernel
  have hsize : utf8Size "'é', ".toList = 6 := by decide +kernel
  have hlast : "'é', ".toList.getLast?.all isSeparating = true := by decide +kernel
  have hread := (tokenize_append hfirst hlast).1 _ hsecond
  obtain ⟨fragment, offset, heq, hstuck⟩ := (tokenize_append hfirst hlast).2 _ hrefused
  cases heq
  rw [hsize] at hread hstuck
  exact ⟨hread, hstuck⟩

end PredicateExpr
