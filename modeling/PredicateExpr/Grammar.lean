import PredicateExpr.Nesting

/-!
# The grammar of expressions

The language of expressions by its grammar, apart from any way of reading it. An expression is
nothing, or a chain of operands under the connective that binds loosest; the operands of a chain
are chains under the next tighter connective, and below the tightest one there are negations and
atoms. A chain leans to the right.

`Grammar.Derives` relates the tokens of an expression, without separators, to its tree. The two
limits on depth are stated apart from it: `Grammar.withinGroups` limits the groups around a bracket,
and `Tree.height` is to be at most `maxDepth`.
-/

namespace PredicateExpr.Grammar

/-- The syntactic categories. -/
inductive Category
  /-- An expression, which may be empty. -/
  | expression
  /-- Operands joined by a connective, or one operand alone. -/
  | chain (c : Connective)
  /-- An atom with any number of negations in front. -/
  | negation
  /-- A predicate, or a group. -/
  | atom
  deriving DecidableEq, Repr

/-- What the operands of a chain are. -/
def operandOf : Connective → Category
  | .or => .chain .xor
  | .xor => .chain .and
  | .and => .negation

/-- The operands of a chain are not empty expressions. -/
theorem operandOf_ne_expression (c : Connective) : operandOf c ≠ .expression := by
  cases c <;> exact nofun

/-- The category of the expressions that an operator can take as operands on its left and, in a
chain, on its right. -/
def categoryOf : Operator → Category
  | .not => .negation
  | .binary c => .chain c

/-- The category of the expressions that are not yet joined by an operator, and by none that binds
looser. -/
def categoryBelow : Operator → Category
  | .not => .atom
  | .binary c => operandOf c

/-- A token that stands for an operator: an operator token whose text is a spelling of it, where
the letter case of ASCII letters is ignored. -/
def Spells (token : Token) (op : Operator) : Prop :=
  token.kind = .operator ∧
    (String.ofList (token.text.toList.map Char.toLower), op) ∈ Operator.spellings

instance (token : Token) (op : Operator) : Decidable (Spells token op) :=
  inferInstanceAs (Decidable (_ ∧ _))

/-- A token stands for an operator when it is an operator token whose text is read as it. -/
theorem spells_iff {token : Token} {op : Operator} :
    Spells token op ↔ token.kind = .operator ∧ Operator.ofText? token.text = some op := by
  rw [Spells, Operator.ofText?_eq_some_iff]

/-- The tokens of an expression of some category, and its tree. -/
inductive Derives : Category → List Token → Tree Atom → Prop
  | empty : Derives .expression [] .empty
  | chain {ts : List Token} {t : Tree Atom} :
      Derives (.chain .or) ts t → Derives .expression ts t
  | operand {c : Connective} {ts : List Token} {t : Tree Atom} :
      Derives (operandOf c) ts t → Derives (.chain c) ts t
  | join {c : Connective} {ts us : List Token} {token : Token} {l r : Tree Atom} :
      Derives (operandOf c) ts l → Spells token (.binary c) → Derives (.chain c) us r →
      Derives (.chain c) (ts ++ token :: us) (.join c l r)
  | atom {ts : List Token} {t : Tree Atom} :
      Derives .atom ts t → Derives .negation ts t
  | not {token : Token} {ts : List Token} {t : Tree Atom} :
      Spells token .not → Derives .negation ts t → Derives .negation (token :: ts) (.not t)
  | leaf {word : Token} {literals : List Token} :
      word.kind = .word → (∀ token ∈ literals, token.kind = .literal) →
      Derives .atom (word :: literals) (.leaf ⟨word.text, literals.map Token.text⟩)
  | group {opening closing : Token} {ts : List Token} {t : Tree Atom} :
      opening.kind = .opener → closing.kind = .closer → Derives .expression ts t →
      Derives .atom (opening :: ts ++ [closing]) t

/-- An atom is an operand under every connective. -/
theorem Derives.toOperand {ts : List Token} {t : Tree Atom} (h : Derives .atom ts t)
    (c : Connective) : Derives (operandOf c) ts t := by
  cases c with
  | and => exact .atom h
  | xor => exact .operand (.atom h)
  | or => exact .operand (.operand (.atom h))

/-- An operand below an operator is an operand that it can take. -/
theorem Derives.toCategoryOf {op : Operator} {ts : List Token} {t : Tree Atom}
    (h : Derives (categoryBelow op) ts t) : Derives (categoryOf op) ts t := by
  cases op with
  | not => exact .atom h
  | binary c => exact .operand h

/-- What is derived in any category is an expression. -/
theorem Derives.toExpression {category : Category} {ts : List Token} {t : Tree Atom}
    (h : Derives category ts t) : Derives .expression ts t := by
  have hor : ∀ {c : Connective}, Derives (.chain c) ts t → Derives .expression ts t := by
    intro c h
    cases c with
    | or => exact .chain h
    | xor => exact .chain (.operand h)
    | and => exact .chain (.operand (.operand h))
  have hnegation : Derives .negation ts t → Derives .expression ts t :=
    fun h => hor (c := .and) (.operand h)
  cases category with
  | expression => exact h
  | chain c => exact hor h
  | negation => exact hnegation h
  | atom => exact hnegation (.atom h)

/-- Whether every opening bracket has fewer than `maxDepth` groups open around it, where `groups`
are open at the beginning. -/
def withinGroups : (groups : Nat) → List Token → Bool
  | _, [] => true
  | groups, token :: tokens =>
    match token.kind with
    | .opener => decide (groups < maxDepth) && withinGroups (groups + 1) tokens
    | .closer => withinGroups (groups - 1) tokens
    | _ => withinGroups groups tokens

/-- Tokens without the separators among them. -/
def significant (tokens : List Token) : List Token :=
  tokens.filter (·.kind != .separator)

theorem significant_cons {token : Token} (h : token.kind ≠ .separator) (tokens : List Token) :
    significant (token :: tokens) = token :: significant tokens := by
  simp [significant, h]

theorem significant_cons_of_separator {token : Token} (h : token.kind = .separator)
    (tokens : List Token) : significant (token :: tokens) = significant tokens := by
  simp [significant, h]

theorem significant_append (ts us : List Token) :
    significant (ts ++ us) = significant ts ++ significant us :=
  List.filter_append _ _

end PredicateExpr.Grammar
