import PredicateExpr.Proofs.Nesting.Soundness
import PredicateExpr.Tree.InOrder

/-!
# Nothing is lost in parsing

The tree of an expression says what its tokens say, in the same order (`parse_conserves`): no name,
argument or operator is dropped, doubled or moved, whatever precedence and brackets make of the
shape. A derivation transcribes to its tree wherever it stands (`Derives.transcribes`), as long as
no literals follow that a name at its end would take for its own.
-/

namespace PredicateExpr

open Grammar (Category Derives Spells significant)

namespace Token

variable {token : Token}

/-! ## Separators -/

/-- Separators do not come between a name and its arguments. -/
theorem argsAhead_significant (tokens : List Token) :
    argsAhead (significant tokens) = argsAhead tokens := by
  induction tokens with
  | nil => rfl
  | cons token tokens ih =>
    by_cases hkind : token.kind = .separator
    · rw [Grammar.significant_cons_of_separator hkind, ih, argsAhead, hkind]
    · rw [Grammar.significant_cons hkind, argsAhead, argsAhead, ih]

/-- Separators do not come between the brackets of an empty group. -/
theorem closesAhead_significant (tokens : List Token) :
    closesAhead (significant tokens) = closesAhead tokens := by
  induction tokens with
  | nil => rfl
  | cons token tokens ih =>
    by_cases hkind : token.kind = .separator
    · rw [Grammar.significant_cons_of_separator hkind, ih, closesAhead, hkind]
    · rw [Grammar.significant_cons hkind, closesAhead, closesAhead, ih]

/-- Separators say nothing, and do not change what other tokens say. -/
theorem notes_significant (tokens : List Token) :
    notes (significant tokens) = notes tokens := by
  induction tokens with
  | nil => rfl
  | cons token tokens ih =>
    by_cases hkind : token.kind = .separator
    · rw [Grammar.significant_cons_of_separator hkind, ih, notes, note, hkind]
      rfl
    · rw [Grammar.significant_cons hkind, notes, notes, ih, note, note,
        argsAhead_significant, closesAhead_significant]

/-! ## Tokens one by one -/

/-- No argument stands ahead where another token does. -/
theorem argsAhead_of_ne (hliteral : token.kind ≠ .literal) (hseparator : token.kind ≠ .separator)
    (tokens : List Token) : argsAhead (token :: tokens) = [] := by
  unfold argsAhead
  split
  · contradiction
  · contradiction
  · rfl

/-- No closing bracket stands ahead where another token does. -/
theorem closesAhead_of_ne (hcloser : token.kind ≠ .closer) (hseparator : token.kind ≠ .separator)
    (tokens : List Token) : closesAhead (token :: tokens) = false := by
  unfold closesAhead
  split
  · contradiction
  · contradiction
  · rfl

/-- An operator says that it is there. -/
theorem notes_operator {op : Operator} (h : Spells token op) (behind : List Token) :
    notes (token :: behind) = some (.operator op) :: notes behind := by
  obtain ⟨hkind, hop⟩ := Grammar.spells_iff.mp h
  rw [notes, note, hkind, hop]
  rfl

/-- A closing bracket says nothing. -/
theorem notes_closer (h : token.kind = .closer) (behind : List Token) :
    notes (token :: behind) = notes behind := by
  rw [notes, note, h]
  rfl

/-- Literals say nothing of their own, but are arguments of the name before them. -/
theorem notes_literals {literals : List Token} (h : ∀ token ∈ literals, token.kind = .literal)
    (behind : List Token) :
    notes (literals ++ behind) = notes behind ∧
      argsAhead (literals ++ behind) = literals.map Token.text ++ argsAhead behind := by
  induction literals with
  | nil => exact ⟨rfl, rfl⟩
  | cons token literals ih =>
    rw [List.forall_mem_cons] at h
    obtain ⟨hnotes, hargs⟩ := ih h.2
    constructor
    · rw [List.cons_append, notes, note, h.1, hnotes]
      rfl
    · rw [List.cons_append, argsAhead, h.1, hargs]
      rfl

/-- The leaves that tokens speak of are the names among them. -/
theorem filterMap_label?_notes (tokens : List Token) :
    (notes tokens).filterMap (·.bind Tree.Node.label?) = atoms tokens := by
  induction tokens with
  | nil => rfl
  | cons token tokens ih =>
    rw [notes, List.filterMap_append, ih, note, atoms]
    cases token.kind with
    | opener => cases closesAhead tokens <;> rfl
    | operator => cases Operator.ofText? token.text <;> rfl
    | closer | separator | literal | word => rfl

/-- There is no name among separators. -/
theorem atoms_of_separators {tokens : List Token}
    (h : ∀ token ∈ tokens, token.kind = .separator) : atoms tokens = [] := by
  induction tokens with
  | nil => rfl
  | cons token tokens ih =>
    rw [List.forall_mem_cons] at h
    rw [atoms, h.1]
    exact ih h.2

/-- The leaves that tokens speak of are the names among them, with their arguments. -/
theorem filterMap_label?_transcript (tokens : List Token) :
    (transcript tokens).filterMap (·.bind Tree.Node.label?) = atoms tokens := by
  unfold transcript
  split
  · rename_i hblank
    rw [atoms_of_separators (by simpa using hblank)]
    rfl
  · exact filterMap_label?_notes tokens

end Token

open Token (argsAhead closesAhead notes transcript)

/-! ## Derivations -/

/-- The tokens say what the tree says, and a bracket in front of them is not closed at once. -/
structure Transcribes (ts : List Token) (t : Tree Atom) : Prop where
  /-- They do not begin with a closing bracket, and there are some. -/
  closesAhead_append : ∀ behind, closesAhead (ts ++ behind) = false
  /-- What they say does not depend on what follows, unless arguments follow. -/
  notes_append : ∀ behind, argsAhead behind = [] →
    notes (ts ++ behind) = t.inOrder.map some ++ notes behind

namespace Transcribes

/-- There are tokens where something is said. -/
theorem ne_nil {ts : List Token} {t : Tree Atom} (h : Transcribes ts t) : ts ≠ [] := by
  rintro rfl
  cases h.closesAhead_append [⟨.closer, ")", 0⟩]

/-- Two operands with a connective between them say what the joined expression says. -/
theorem join {c : Connective} {ts us : List Token} {token : Token} {l r : Tree Atom}
    (hl : Transcribes ts l) (hop : Spells token (.binary c)) (hr : Transcribes us r) :
    Transcribes (ts ++ token :: us) (.join c l r) := by
  refine ⟨fun behind => ?_, fun behind hbehind => ?_⟩
  · rw [List.append_assoc]
    exact hl.closesAhead_append _
  · have hargs : argsAhead (token :: (us ++ behind)) = [] :=
      Token.argsAhead_of_ne (by simp [hop.1]) (by simp [hop.1]) _
    rw [List.append_assoc, List.cons_append, hl.notes_append _ hargs, Token.notes_operator hop,
      hr.notes_append behind hbehind, Tree.inOrder, List.map_append, List.map_cons,
      List.append_assoc, List.cons_append]

/-- An operand with a negation in front of it says what the negated expression says. -/
theorem not {token : Token} {ts : List Token} {t : Tree Atom} (hop : Spells token .not)
    (h : Transcribes ts t) : Transcribes (token :: ts) (.not t) := by
  refine ⟨fun behind => ?_, fun behind hbehind => ?_⟩
  · exact Token.closesAhead_of_ne (by simp [hop.1]) (by simp [hop.1]) _
  · rw [List.cons_append, Token.notes_operator hop, h.notes_append behind hbehind]
    rfl

/-- A name with its literals says what the leaf says. -/
theorem leaf {word : Token} {literals : List Token} (hword : word.kind = .word)
    (hliterals : ∀ token ∈ literals, token.kind = .literal) :
    Transcribes (word :: literals) (.leaf ⟨word.text, literals.map Token.text⟩) := by
  refine ⟨fun behind => ?_, fun behind hbehind => ?_⟩
  · exact Token.closesAhead_of_ne (by simp [hword]) (by simp [hword]) _
  · obtain ⟨hnotes, hargs⟩ := Token.notes_literals hliterals behind
    rw [List.cons_append, notes, Token.note, hword, hnotes, hargs, hbehind, List.append_nil]
    rfl

/-- A group says what is inside it, or that there is nothing. -/
theorem group {opening closing : Token} {ts : List Token} {t : Tree Atom}
    (hopening : opening.kind = .opener) (hclosing : closing.kind = .closer)
    (h : ts = [] ∧ t = .empty ∨ Transcribes ts t) :
    Transcribes (opening :: ts ++ [closing]) t := by
  refine ⟨fun behind => ?_, fun behind hbehind => ?_⟩
  · exact Token.closesAhead_of_ne (by simp [hopening]) (by simp [hopening]) _
  · rw [List.append_assoc, List.cons_append, List.singleton_append, notes, Token.note, hopening]
    obtain ⟨rfl, rfl⟩ | h := h
    · have hcloses : closesAhead (closing :: behind) = true := by rw [closesAhead, hclosing]
      rw [List.nil_append, hcloses, Token.notes_closer hclosing]
      rfl
    · have hargs : argsAhead (closing :: behind) = [] :=
        Token.argsAhead_of_ne (by simp [hclosing]) (by simp [hclosing]) _
      rw [h.closesAhead_append, h.notes_append _ hargs, Token.notes_closer hclosing]
      rfl

end Transcribes

namespace Grammar

/-- The tokens of a derivation say what its tree says; only the empty expression is said by no
token. -/
theorem Derives.transcribes {category : Category} {ts : List Token} {t : Tree Atom}
    (h : Derives category ts t) :
    category = .expression ∧ ts = [] ∧ t = .empty ∨ Transcribes ts t := by
  induction h with
  | empty => exact .inl ⟨rfl, rfl, rfl⟩
  | chain _ ih => exact .inr (ih.resolve_left fun hempty => nomatch hempty.1)
  | operand _ ih =>
    exact .inr (ih.resolve_left fun hempty => operandOf_ne_expression _ hempty.1)
  | join _ hop _ ihl ihr =>
    have hl := ihl.resolve_left fun hempty => operandOf_ne_expression _ hempty.1
    have hr := ihr.resolve_left fun hempty => nomatch hempty.1
    exact .inr (.join hl hop hr)
  | atom _ ih => exact .inr (ih.resolve_left fun hempty => nomatch hempty.1)
  | not hop _ ih => exact .inr (.not hop (ih.resolve_left fun hempty => nomatch hempty.1))
  | leaf hword hliterals => exact .inr (.leaf hword hliterals)
  | group hopening hclosing _ ih =>
    exact .inr (.group hopening hclosing (ih.imp_left fun hempty => hempty.2))

/-- What the tokens of an expression say as a whole is what its tree says. -/
theorem Derives.transcript_eq {tokens : List Token} {t : Tree Atom}
    (h : Derives .expression (significant tokens) t) :
    transcript tokens = t.inOrder.map some := by
  have hblank : tokens.all (·.kind = .separator) = true ↔ significant tokens = [] := by
    simp [significant]
  unfold transcript
  obtain ⟨_, hnil, rfl⟩ | htranscribes := h.transcribes
  · rw [if_pos (hblank.mpr hnil)]
    rfl
  · have hnotes := htranscribes.notes_append [] rfl
    rw [List.append_nil, Token.notes_significant] at hnotes
    rw [if_neg fun hall => htranscribes.ne_nil (hblank.mp hall), hnotes]
    exact List.append_nil _

/-- Each literal is an argument of a leaf, and each operator token an operator, in the order of the
tree. -/
structure Keeps (ts : List Token) (t : Tree Atom) : Prop where
  literals : (ts.filter (·.kind = .literal)).map Token.text = t.leaves.flatMap Atom.args
  operators : (ts.filter (·.kind = .operator)).map (Operator.ofText? ·.text) =
    t.operators.map some

/-- A derivation loses no literal and no operator, and adds none: in every rule the operands have
their tokens in the order in which the tree has its nodes. -/
theorem Derives.keeps {category : Category} {ts : List Token} {t : Tree Atom}
    (h : Derives category ts t) : Keeps ts t := by
  induction h with
  | empty => exact ⟨rfl, rfl⟩
  | chain _ ih | operand _ ih | atom _ ih => exact ih
  | join _ hop _ ihl ihr =>
    obtain ⟨hkind, hop⟩ := spells_iff.mp hop
    constructor
    · simp [hkind, ihl.literals, ihr.literals, Tree.leaves]
    · simp [hkind, hop, ihl.operators, ihr.operators, Tree.operators_join]
  | not hop _ ih =>
    obtain ⟨hkind, hop⟩ := spells_iff.mp hop
    constructor
    · simp [hkind, ih.literals, Tree.leaves]
    · simp [hkind, hop, ih.operators, Tree.operators_not]
  | @leaf word literals hword hliterals =>
    have hall : literals.filter (·.kind = .literal) = literals :=
      List.filter_eq_self.mpr (by simpa using hliterals)
    have hnone : literals.filter (·.kind = .operator) = [] := by
      rw [List.filter_eq_nil_iff]
      intro literal hmem
      simp [hliterals literal hmem]
    constructor
    · simp [hword, hall, Tree.leaves]
    · simp [hword, hnone]
      rfl
  | group hopening hclosing _ ih =>
    constructor
    · simp [hopening, hclosing, ih.literals]
    · simp [hopening, hclosing, ih.operators]

/-- Among the tokens of another kind no separator is missed. -/
theorem filter_significant {kind : Token.Kind} (h : kind ≠ .separator) (tokens : List Token) :
    (significant tokens).filter (·.kind = kind) = tokens.filter (·.kind = kind) := by
  rw [significant, List.filter_filter]
  refine List.filter_congr fun token _ => ?_
  by_cases heq : token.kind = kind
  · simp [heq, h]
  · simp [heq]

end Grammar

/-- What tokens that parse say is what their tree says, in order. So the leaves are the names among
the tokens, each with the literals behind it, and no argument and no operator is lost. -/
theorem parse_conserves {tokens : List Token} {t : Tree Atom} (h : parse tokens = .ok t) :
    transcript tokens = t.inOrder.map some ∧ Token.atoms tokens = t.leaves ∧
      (tokens.filter (·.kind = .literal)).map Token.text = t.leaves.flatMap Atom.args ∧
      (tokens.filter (·.kind = .operator)).map (Operator.ofText? ·.text) =
        t.operators.map some := by
  have hderives := (derives_of_parse h).1
  have htranscript := hderives.transcript_eq
  obtain ⟨hliterals, hoperators⟩ := hderives.keeps
  rw [Grammar.filter_significant (by decide)] at hliterals hoperators
  refine ⟨htranscript, ?_, hliterals, hoperators⟩
  rw [← Token.filterMap_label?_transcript, htranscript, List.filterMap_map]
  exact t.filterMap_label?_inOrder

/-- A negated group with blanks in it, an empty group, and a name with two arguments of which one
stands behind a comma. -/
theorem parse_conserves_of_groups :
    parse [⟨.operator, "!", 0⟩, ⟨.opener, "(", 1⟩, ⟨.separator, " ", 2⟩, ⟨.word, "f", 3⟩,
        ⟨.literal, "x", 4⟩, ⟨.separator, ", ", 7⟩, ⟨.literal, "1", 9⟩, ⟨.closer, "]", 10⟩,
        ⟨.operator, "OR", 11⟩, ⟨.opener, "[", 13⟩, ⟨.separator, " ", 14⟩, ⟨.closer, "]", 15⟩] =
      .ok (.join .or (.not (.leaf ⟨"f", ["x", "1"]⟩)) .empty) ∧
    transcript [⟨.operator, "!", 0⟩, ⟨.opener, "(", 1⟩, ⟨.separator, " ", 2⟩, ⟨.word, "f", 3⟩,
        ⟨.literal, "x", 4⟩, ⟨.separator, ", ", 7⟩, ⟨.literal, "1", 9⟩, ⟨.closer, "]", 10⟩,
        ⟨.operator, "OR", 11⟩, ⟨.opener, "[", 13⟩, ⟨.separator, " ", 14⟩, ⟨.closer, "]", 15⟩] =
      [some (.operator .not), some (.leaf ⟨"f", ["x", "1"]⟩), some (.operator (.binary .or)),
        some .empty] := by
  refine ⟨?parsed, (parse_conserves ?parsed).1⟩
  decide

end PredicateExpr
