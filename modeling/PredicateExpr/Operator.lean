/-!
# Operators

An expression joins predicates by three binary connectives and negates them by one unary operator.
Each operator has a symbol or several, and a word that may be written in any ASCII letter case.

`Operator.precedence` lists the operators from the one that binds tightest to the one that binds
loosest, which is the order in which the operators of a bracket level are given their operands.
-/

namespace PredicateExpr

/-- A binary operator. -/
inductive Connective
  | and
  | xor
  | or
  deriving DecidableEq, Repr

/-- An operator: negation, or one of the connectives. -/
inductive Operator
  | not
  | binary (connective : Connective)
  deriving DecidableEq, Repr

/-- The name under which a connective is rendered. -/
def Connective.name : Connective → String
  | .and => "AND"
  | .xor => "XOR"
  | .or => "OR"

/-- The value of a joined pair of operands. -/
def Connective.combine : Connective → Bool → Bool → Bool
  | .and, l, r => l && r
  | .xor, l, r => l ^^ r
  | .or, l, r => l || r

namespace Operator

/-- The name under which an operator is rendered and reported. -/
def name : Operator → String
  | .not => "NOT"
  | .binary c => c.name

/-- Negation is the only operator that takes a single operand. -/
def isUnary : Operator → Bool
  | .not => true
  | .binary _ => false

/-- The operators, tightest first. -/
def precedence : List Operator :=
  [.not, .binary .and, .binary .xor, .binary .or]

/-- Every operator has its place in the order of precedence. -/
theorem mem_precedence (op : Operator) : op ∈ precedence := by
  rcases op with _ | (_ | _ | _) <;> decide

/-- The spellings of each operator, in lower case. -/
def spellings : List (String × Operator) :=
  [("!", .not), ("not", .not),
    ("&", .binary .and), ("and", .binary .and),
    ("^", .binary .xor), ("xor", .binary .xor), ("!=", .binary .xor),
    ("|", .binary .or), ("or", .binary .or)]

/-- The operator that a text spells, if any. The letter case of ASCII letters is ignored. -/
def ofText? (text : String) : Option Operator :=
  spellings.lookup (String.ofList (text.toList.map Char.toLower))

/-- A text spells an operator when the table of spellings lists it in lower case. -/
theorem ofText?_eq_some_iff {text : String} {op : Operator} :
    ofText? text = some op ↔
      (String.ofList (text.toList.map Char.toLower), op) ∈ spellings := by
  rw [ofText?]
  constructor
  · intro h
    obtain ⟨before, after, hsplit, _⟩ := List.lookup_eq_some_iff.mp h
    rw [hsplit]
    exact List.mem_append_right _ List.mem_cons_self
  · intro h
    generalize String.ofList (text.toList.map Char.toLower) = lower at h ⊢
    simp only [spellings, List.mem_cons, Prod.mk.injEq, List.not_mem_nil, or_false] at h
    -- No spelling stands for two operators, so that the first entry found is the one meant.
    rcases h with ⟨rfl, rfl⟩ | ⟨rfl, rfl⟩ | ⟨rfl, rfl⟩ | ⟨rfl, rfl⟩ | ⟨rfl, rfl⟩ | ⟨rfl, rfl⟩ |
      ⟨rfl, rfl⟩ | ⟨rfl, rfl⟩ | ⟨rfl, rfl⟩ <;> decide

/-- The complaint about a text that spells no operator. -/
def unknownMessage (text : String) : String :=
  s!"unknown operator: {text}"

end Operator

end PredicateExpr
