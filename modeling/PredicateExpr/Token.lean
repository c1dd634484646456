/-!
# Tokens

An expression is a sequence of tokens: brackets, operators, literals and words, and the separators
between them. A token knows its text and the byte at which it starts. The bracket style is never
compared, and a separator is accepted anywhere but has no meaning.
-/

namespace PredicateExpr

/-- What a token is. -/
inductive Token.Kind
  /-- An opening bracket. -/
  | opener
  /-- A closing bracket. -/
  | closer
  /-- Blanks and commas. -/
  | separator
  /-- An operator symbol or operator word. -/
  | operator
  /-- A number or a quoted text. -/
  | literal
  /-- The name of a predicate. -/
  | word
  deriving DecidableEq, Repr

namespace Token.Kind

/-- All kinds. Where two kinds are found at the same place, the one listed first wins. -/
def all : List Kind :=
  [.opener, .closer, .separator, .operator, .literal, .word]

/-- The name of a kind in reports. -/
def name : Kind → String
  | .opener => "DelimOpen"
  | .closer => "DelimClose"
  | .separator => "Separator"
  | .operator => "Operator"
  | .literal => "Literal"
  | .word => "Word"

/-- The kind with a given name. -/
def ofName? (name : String) : Option Kind :=
  all.find? fun kind => kind.name == name

end Token.Kind

/-- A token of an expression. -/
structure Token where
  /-- What the token is. -/
  kind : Token.Kind
  /-- Its text; for a quoted literal, what stands between the quotes. -/
  text : String
  /-- The byte of the expression at which it starts. -/
  offset : Nat
  deriving DecidableEq, Repr

end PredicateExpr
