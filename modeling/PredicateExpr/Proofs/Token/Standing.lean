import PredicateExpr.Error.Place
import PredicateExpr.Proofs.Token.Coverage

/-!
# What a scan leaves in its text

A scan that gets stuck has read tokens all the same, and each of them stands in the text at its byte
(`standsIn_of_mem_scan`), whatever comes behind it. Its text is one of those that its kind has
(`Token.admits_of_first?`), and for an operator this means a spelling in the table of operators. The
stretch that stopped the scan stands at its byte, too (`exists_of_stop?_scan`).
-/

namespace PredicateExpr

open Text

namespace Token

open Kind (isSeparating)

/-! ## Texts of tokens -/

/-- The text of a symbol is one of the operators that are no words. -/
theorem mem_of_symbol? {cs text rest : List Char} (h : symbol? cs = some (text, rest)) :
    String.ofList text ∈ ["!=", "&", "|", "^", "!"] := by
  unfold symbol? at h
  split at h
  · cases h
    decide
  · rename_i c cs _
    split at h
    · rename_i hc
      cases h
      have hmem : c = '&' ∨ c = '|' ∨ c = '^' ∨ c = '!' := by simpa [Kind.isSymbol] using hc
      rcases hmem with rfl | rfl | rfl | rfl <;> decide
    · cases h
  · cases h

/-- The text of a token at the beginning of a text is one that its kind has. -/
theorem admits_of_first? {kind : Kind} {cs text rest : List Char}
    (h : first? cs = some (kind, text, rest)) (hkind : kind ≠ .separator) :
    kind.Admits (String.ofList text) := by
  have hhere := Kind.first?_of_first? h
  have hwritable := writable_of_first? h 0
  cases kind with
  | opener =>
    obtain ⟨c, hc, rfl, _⟩ := single?_eq_some_iff.mp hhere
    have hmem : c = '(' ∨ c = '[' ∨ c = '\x7b' := by simpa [Kind.isOpening] using hc
    rcases hmem with rfl | rfl | rfl <;> decide
  | closer =>
    obtain ⟨c, hc, rfl, _⟩ := single?_eq_some_iff.mp hhere
    have hmem : c = ')' ∨ c = ']' ∨ c = '\x7d' := by simpa [Kind.isClosing] using hc
    rcases hmem with rfl | rfl | rfl <;> decide
  | separator => exact absurd rfl hkind
  | operator =>
    have hall : ["!=", "&", "|", "^", "!", "and", "or", "xor", "not"] =
        ["!=", "&", "|", "^", "!"] ++ ["and", "or", "xor", "not"] := rfl
    change String.ofList text ∈ ["!=", "&", "|", "^", "!", "and", "or", "xor", "not"]
    rw [hall]
    rcases Option.or_eq_some_iff.mp hhere with hsymbol | ⟨_, hword⟩
    · exact List.mem_append_left _ (mem_of_symbol? hsymbol)
    · exact List.mem_append_right _ (operatorWord?_eq_some_iff.mp hword).2.1
  | literal => exact hwritable.arg rfl
  | word => exact hwritable.name rfl

/-- The operators that tokens have are those that the table of operators spells. -/
theorem Legal.exists_spells {token : Token} (h : token.Legal) (hkind : token.kind = .operator) :
    ∃ op, Grammar.Spells token op := by
  have hall : ∀ text ∈ ["!=", "&", "|", "^", "!", "and", "or", "xor", "not"],
      (Operator.ofText? text).isSome = true := by decide
  rw [Legal, hkind] at h
  obtain ⟨op, hop⟩ := Option.isSome_iff_exists.mp (hall token.text h)
  exact ⟨op, Grammar.spells_iff.mpr ⟨hkind, hop⟩⟩

/-! ## Tokens at their bytes -/

/-- The token at the beginning of what stands behind a byte stands in the text at this byte. -/
theorem standsIn_of_first? {text : String} {here content rest : List Char} {kind : Kind}
    {offset : Nat} (hhere : dropBytes? offset text.toList = some here)
    (h : first? here = some (kind, content, rest)) (hkind : kind ≠ .separator) :
    StandsIn text ⟨kind, String.ofList content, offset⟩ := by
  have hread := Kind.first?_of_first? h
  obtain ⟨stretch, rfl, hextent⟩ := first?_eq_some_iff.mp h
  have hspan : span ⟨kind, String.ofList content, offset⟩ text.toList = stretch := by
    rw [span, hhere]
    exact hextent.spanAt_eq offset
  refine ⟨admits_of_first? h hkind, ?_, ⟨rest, ?_⟩, ?_⟩
  · rw [hspan]
    exact hextent.ne_nil
  · rwa [hspan]
  · rintro rfl
    refine ⟨stretch ++ rest, rest, hhere, ?_⟩
    rw [String.toList_ofList]
    exact (Option.or_eq_some_iff.mp hread).imp id And.right

end Token

/-! ## Scans -/

section

variable {text : String} {offset : Nat} {cs : List Char}

/-- Every token that a scan reads stands in the text, whether or not the scan gets to the end. -/
theorem standsIn_of_mem_scanFrom (hcs : dropBytes? offset text.toList = some cs) :
    ∀ token ∈ (scanFrom offset cs).tokens, token.StandsIn text := by
  fun_induction scanFrom offset cs with
  | case1 => simp
  | case2 => simp
  | case3 offset cs hne kind found hclosest hhere ih =>
    obtain ⟨hfirst, happend⟩ := Token.first?_of_closest? hclosest hhere
    have hbehind : dropBytes? (offset + utf8Size found.text) text.toList = some found.rest := by
      refine dropBytes?_add ?_
      rw [hcs, happend]
    have hrest := ih hbehind
    unfold Scan.prepend
    split
    · exact hrest
    · rename_i hkind
      rw [List.forall_mem_cons]
      exact ⟨Token.standsIn_of_first? hcs hfirst hkind, hrest⟩
  | case4 => simp

/-- What stops a scan is a stretch of the text that begins where the scan got stuck. -/
theorem exists_of_stop?_scanFrom {stop : Unrecognised}
    (hcs : dropBytes? offset text.toList = some cs) (h : (scanFrom offset cs).stop? = some stop) :
    stop.fragment ≠ [] ∧
      ∃ rest, dropBytes? stop.offset text.toList = some (stop.fragment ++ rest) := by
  fun_induction scanFrom offset cs with
  | case1 => cases h
  | case2 offset cs hne _ =>
    cases h
    exact ⟨hne, [], by rwa [List.append_nil]⟩
  | case3 offset cs hne kind found hclosest hhere ih =>
    obtain ⟨_, happend⟩ := Token.first?_of_closest? hclosest hhere
    rw [← happend] at hcs
    rw [Scan.stop?_prepend] at h
    exact ih (dropBytes?_add hcs) h
  | case4 offset cs hne kind found hclosest hskipped =>
    have happend := Pattern.append_of_find? (Token.find?_of_closest? hclosest)
    rw [← happend, List.append_assoc] at hcs
    cases h
    exact ⟨hskipped, _, hcs⟩

end

/-- The tokens that a scan reads stand in the text. -/
theorem standsIn_of_mem_scan (text : String) :
    ∀ token ∈ (scan text).tokens, token.StandsIn text :=
  standsIn_of_mem_scanFrom (dropBytes?_zero _)

/-- What stops a scan stands in the text at its byte. -/
theorem exists_of_stop?_scan {text : String} {stop : Unrecognised}
    (h : (scan text).stop? = some stop) :
    stop.fragment ≠ [] ∧
      ∃ rest, dropBytes? stop.offset text.toList = some (stop.fragment ++ rest) :=
  exists_of_stop?_scanFrom (dropBytes?_zero _) h

/-- The tokens of a text are those that its scan reads. -/
theorem tokens_of_tokenize {text : String} {tokens : List Token} (h : tokenize text = .ok tokens) :
    (scan text).tokens = tokens := by
  unfold tokenize Scan.result at h
  split at h
  · cases h
    rfl
  · cases h

/-- The tokens of a text stand in it. -/
theorem standsIn_of_tokenize {text : String} {tokens : List Token}
    (h : tokenize text = .ok tokens) : ∀ token ∈ tokens, token.StandsIn text := by
  rw [← tokens_of_tokenize h]
  exact standsIn_of_mem_scan text

/-- A text is refused for the stretch that stopped its scan. -/
theorem exists_stop_of_tokenize {text : String} {e : CompileError} (h : tokenize text = .error e) :
    ∃ stop, (scan text).stop? = some stop ∧
      e = .unrecognised (String.ofList stop.fragment) stop.offset := by
  unfold tokenize Scan.result at h
  split at h
  · cases h
  · rename_i stop hstop
    cases h
    exact ⟨stop, hstop, rfl⟩

end PredicateExpr
