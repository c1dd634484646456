import PredicateExpr.Token.Lexer

/-!
# Tokens read from left to right

The tokens of a text can be told without looking ahead for the closest match: the characters at a
place say at once which token starts there, if any. `Token.first?` reads the token at the beginning
of a text by these rules, tried in order, and `leftToRight` reads a whole text one token after the
other. A reader returns the text of the token, which for a quoted literal is not all that it takes
up, and what follows the token.
-/

namespace PredicateExpr

open Text

namespace Token

/-- The longest beginning of characters of a class, unless it is empty, and what follows it. -/
def run? (accepts : Char → Bool) (cs : List Char) : Option (List Char × List Char) :=
  match cs.takeWhile accepts with
  | [] => none
  | stretch => some (stretch, cs.dropWhile accepts)

/-- An operator symbol at the beginning of a text, the one of two characters before the others. -/
def symbol? : List Char → Option (List Char × List Char)
  | '!' :: '=' :: cs => some (['!', '='], cs)
  | c :: cs => if Kind.isSymbol c then some ([c], cs) else none
  | [] => none

/-- What follows a given word at the beginning of a text. -/
def afterWord? : (word : List Char) → List Char → Option (List Char)
  | [], cs => some cs
  | _ :: _, [] => none
  | c :: word, d :: cs => if c = d then afterWord? word cs else none

/-- A given word at the beginning of a text, with a blank right behind it. -/
def wordBeforeBlank? (word : List Char) (cs : List Char) : Option (List Char × List Char) :=
  (afterWord? word cs).bind fun rest =>
    if rest.head?.any isBlank then some (word, rest) else none

/-- An operator word at the beginning of a text. -/
def operatorWord? (cs : List Char) : Option (List Char × List Char) :=
  ["and", "or", "xor", "not"].findSome? fun word => wordBeforeBlank? word.toList cs

/-- A quoted text at the beginning of a text: what lies before the next single quote. -/
def quoted? : List Char → Option (List Char × List Char)
  | '\x27' :: cs =>
    match cs.dropWhile (· != '\x27') with
    | [] => none
    | _ :: rest => some (cs.takeWhile (· != '\x27'), rest)
  | _ => none

/-- Digits at the beginning of a text, with the fraction that may follow them. -/
def decimal? (cs : List Char) : Option (List Char × List Char) :=
  (run? isDecimalDigit cs).map fun (whole, rest) =>
    match rest with
    | '.' :: behind =>
      match run? isDecimalDigit behind with
      | some (fraction, rest) => (whole ++ '.' :: fraction, rest)
      | none => (whole, rest)
    | _ => (whole, rest)

/-- A number at the beginning of a text. -/
def number? : List Char → Option (List Char × List Char)
  | '-' :: cs => (decimal? cs).map fun (digits, rest) => ('-' :: digits, rest)
  | cs => decimal? cs

/-- One character of a class at the beginning of a text. -/
def single? (accepts : Char → Bool) : List Char → Option (List Char × List Char)
  | c :: cs => if accepts c then some ([c], cs) else none
  | [] => none

/-- The text of a token of some kind at the beginning of a text, and what follows the token. -/
def Kind.first? : Kind → List Char → Option (List Char × List Char)
  | .opener, cs => single? isOpening cs
  | .closer, cs => single? isClosing cs
  | .separator, cs => run? isSeparating cs
  | .operator, cs => (symbol? cs).or (operatorWord? cs)
  | .literal, cs => (quoted? cs).or (number? cs)
  | .word, cs => run? isNameChar cs

/-- The kind and the text of the token at the beginning of a text, and what follows the token. -/
def first? (cs : List Char) : Option (Kind × List Char × List Char) :=
  Kind.all.findSome? fun kind => (kind.first? cs).map fun found => (kind, found)

/-! ## What a token takes up -/

/-- A run is a beginning of its text, and it is not empty. -/
theorem append_of_run? {accepts : Char → Bool} {cs text rest : List Char}
    (h : run? accepts cs = some (text, rest)) : text ≠ [] ∧ text ++ rest = cs := by
  unfold run? at h
  split at h
  · cases h
  · rename_i hne
    cases h
    exact ⟨hne, List.takeWhile_append_dropWhile⟩

/-- A single character is a beginning of its text. -/
theorem append_of_single? {accepts : Char → Bool} {cs text rest : List Char}
    (h : single? accepts cs = some (text, rest)) : text ≠ [] ∧ text ++ rest = cs := by
  cases cs with
  | nil => cases h
  | cons c cs =>
    rw [single?] at h
    split at h
    · cases h; simp
    · cases h

/-- An operator symbol is a beginning of its text. -/
theorem append_of_symbol? {cs text rest : List Char} (h : symbol? cs = some (text, rest)) :
    text ≠ [] ∧ text ++ rest = cs := by
  unfold symbol? at h
  split at h
  · cases h; simp
  · split at h
    · cases h; simp
    · cases h
  · cases h

/-- What follows a word stands behind it. -/
theorem append_of_afterWord? {word cs rest : List Char} (h : afterWord? word cs = some rest) :
    word ++ rest = cs := by
  induction word generalizing cs with
  | nil => cases h; rfl
  | cons c word ih =>
    cases cs with
    | nil => cases h
    | cons d cs =>
      rw [afterWord?] at h
      split at h
      · rename_i heq
        rw [heq, List.cons_append, ih h]
      · cases h

/-- An operator word is a beginning of its text. -/
theorem append_of_operatorWord? {cs text rest : List Char}
    (h : operatorWord? cs = some (text, rest)) : text ≠ [] ∧ text ++ rest = cs := by
  obtain ⟨word, hmem, hword⟩ := List.exists_of_findSome?_eq_some h
  simp only [wordBeforeBlank?, Option.bind_eq_some_iff] at hword
  obtain ⟨r, hrest, hblank⟩ := hword
  split at hblank
  · cases hblank
    refine ⟨?_, append_of_afterWord? hrest⟩
    simp only [List.mem_cons, List.not_mem_nil, or_false] at hmem
    rcases hmem with rfl | rfl | rfl | rfl <;> decide
  · cases hblank

/-- A quoted text takes up its quotes, too. -/
theorem append_of_quoted? {cs text rest : List Char} (h : quoted? cs = some (text, rest)) :
    '\x27' :: text ++ '\x27' :: rest = cs := by
  unfold quoted? at h
  split at h
  · rename_i cs
    split at h
    · cases h
    · rename_i quote behind hdrop
      cases h
      have hsplit := List.takeWhile_append_dropWhile (p := (· != '\x27')) (l := cs)
      have hquote : quote = '\x27' := by
        have hhead := List.head?_dropWhile_not (· != '\x27') cs
        rw [hdrop] at hhead
        simpa using hhead
      rw [hdrop, hquote] at hsplit
      rw [List.cons_append, hsplit]
  · cases h

/-- Digits, with their fraction if there is one, are a beginning of their text. -/
theorem append_of_decimal? {cs text rest : List Char}
    (h : decimal? cs = some (text, rest)) : text ≠ [] ∧ text ++ rest = cs := by
  simp only [decimal?, Option.map_eq_some_iff] at h
  obtain ⟨⟨whole, behindWhole⟩, hwhole, heq⟩ := h
  obtain ⟨hne, happend⟩ := append_of_run? hwhole
  dsimp only at heq
  split at heq
  · rename_i behind
    split at heq
    · rename_i fraction behindFraction hfraction
      cases heq
      refine ⟨by simp, ?_⟩
      rw [← happend, ← (append_of_run? hfraction).2]
      simp
    · cases heq; exact ⟨hne, happend⟩
  · cases heq; exact ⟨hne, happend⟩

/-- A number is a beginning of its text. -/
theorem append_of_number? {cs text rest : List Char} (h : number? cs = some (text, rest)) :
    text ≠ [] ∧ text ++ rest = cs := by
  unfold number? at h
  split at h
  · obtain ⟨⟨digits, behind⟩, hdigits, heq⟩ := Option.map_eq_some_iff.mp h
    cases heq
    exact ⟨by simp, by simp [(append_of_decimal? hdigits).2]⟩
  · exact append_of_decimal? h

/-- A token at the beginning of a text takes up its text, or its text and two quotes. -/
theorem Kind.append_of_first? {kind : Kind} {cs text rest : List Char}
    (h : kind.first? cs = some (text, rest)) :
    (text ≠ [] ∧ text ++ rest = cs) ∨
      (kind = .literal ∧ '\x27' :: text ++ '\x27' :: rest = cs) := by
  cases kind with
  | opener => exact .inl (append_of_single? h)
  | closer => exact .inl (append_of_single? h)
  | separator => exact .inl (append_of_run? h)
  | operator =>
    rcases Option.or_eq_some_iff.mp h with h | ⟨_, h⟩
    · exact .inl (append_of_symbol? h)
    · exact .inl (append_of_operatorWord? h)
  | literal =>
    rcases Option.or_eq_some_iff.mp h with h | ⟨_, h⟩
    · exact .inr ⟨rfl, append_of_quoted? h⟩
    · exact .inl (append_of_number? h)
  | word => exact .inl (append_of_run? h)

/-- The token at the beginning of a text is the token of its kind there. -/
theorem Kind.first?_of_first? {kind : Kind} {cs text rest : List Char}
    (h : Token.first? cs = some (kind, text, rest)) : kind.first? cs = some (text, rest) := by
  obtain ⟨k, _, hk⟩ := List.exists_of_findSome?_eq_some h
  obtain ⟨found, hfound, heq⟩ := Option.map_eq_some_iff.mp hk
  cases heq
  exact hfound

/-- What follows the token at the beginning of a text is shorter than the text. -/
theorem length_lt_of_first? {kind : Kind} {cs text rest : List Char}
    (h : first? cs = some (kind, text, rest)) : rest.length < cs.length := by
  rcases Kind.append_of_first? (Kind.first?_of_first? h) with ⟨hne, happend⟩ | ⟨_, happend⟩
  · have hpos : 0 < text.length := List.length_pos_iff.mpr hne
    rw [← happend, List.length_append]
    omega
  · rw [← happend, List.length_append, List.length_cons, List.length_cons]
    omega

end Token

/-! ## Reading a text -/

/-- The tokens of a text that starts at a given byte, or else the byte at which no token starts. -/
def leftToRightFrom (offset : Nat) (cs : List Char) : Except Nat (List Token) :=
  if cs = [] then
    .ok []
  else
    match _h : Token.first? cs with
    | none => .error offset
    | some (kind, text, rest) =>
      (leftToRightFrom (offset + (utf8Size cs - utf8Size rest)) rest).map fun tokens =>
        if kind = .separator then tokens else ⟨kind, String.ofList text, offset⟩ :: tokens
termination_by cs.length
decreasing_by exact Token.length_lt_of_first? _h

theorem leftToRightFrom_nil (offset : Nat) : leftToRightFrom offset [] = .ok [] := by
  rw [leftToRightFrom, if_pos rfl]

/-- A text is refused at the byte at which no token begins. -/
theorem leftToRightFrom_of_none {cs : List Char} (hne : cs ≠ []) (h : Token.first? cs = none)
    (offset : Nat) : leftToRightFrom offset cs = .error offset := by
  rw [leftToRightFrom, if_neg hne]
  split
  · rfl
  · rename_i hsome
    rw [h] at hsome
    cases hsome

/-- A token at the beginning is read, and then the tokens of what follows it. -/
theorem leftToRightFrom_of_some {cs text rest : List Char} {kind : Token.Kind}
    (h : Token.first? cs = some (kind, text, rest)) (offset : Nat) :
    leftToRightFrom offset cs =
      (leftToRightFrom (offset + (utf8Size cs - utf8Size rest)) rest).map fun tokens =>
        if kind = .separator then tokens else ⟨kind, String.ofList text, offset⟩ :: tokens := by
  have hne : cs ≠ [] := by
    rintro rfl
    exact absurd (Token.length_lt_of_first? h) (Nat.not_lt_zero _)
  rw [leftToRightFrom, if_neg hne]
  split
  · rename_i hnone
    rw [h] at hnone
    cases hnone
  · rename_i hsome
    rw [h] at hsome
    cases hsome
    rfl

/-- The tokens of a whole text, or else the byte at which no token starts. -/
def leftToRight (text : String) : Except Nat (List Token) :=
  leftToRightFrom 0 text.toList

end PredicateExpr
