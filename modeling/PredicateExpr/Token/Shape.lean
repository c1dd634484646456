import PredicateExpr.Pattern
import PredicateExpr.Text.Blank
import PredicateExpr.Text.DecimalDigit
import PredicateExpr.Token

/-!
# What tokens look like

Each kind of token has a pattern, and every token takes at least one character
(`Token.Kind.consumes_pattern`). An operator word counts as one only in front of a blank, which is
not part of it, so that names may begin like operators. The text of a token is the stretch that it
takes up, less the quotes of a quoted literal.
-/

namespace PredicateExpr

open Text

namespace Token.Kind

/-- The characters that open a group. -/
def isOpening (c : Char) : Bool :=
  c ∈ ['(', '[', '\x7b']

/-- The characters that close a group. -/
def isClosing (c : Char) : Bool :=
  c ∈ [')', ']', '\x7d']

/-- Blanks and commas separate tokens. -/
def isSeparating (c : Char) : Bool :=
  isBlank c || c == ','

/-- The one-character operators. -/
def isSymbol (c : Char) : Bool :=
  c ∈ ['&', '|', '^', '!']

/-- Names of predicates are made of ASCII letters and underscores. -/
def isNameChar (c : Char) : Bool :=
  c.isAlpha || c == '_'

/-- An operator word. It is one only where a blank follows, so that `orc` and `notify` are names. -/
def operatorWord (word : String) : Pattern :=
  .seq (.exactly word.toList) (.ahead (.one isBlank))

/-- One or more decimal digits. -/
def digits : Pattern :=
  .many isDecimalDigit

/-- A number: a sign or none, digits, and a fraction or none. -/
def number : Pattern :=
  .seq (.maybe (.one (· == '-'))) (.seq digits (.maybe (.seq (.one (· == '.')) digits)))

/-- A text between single quotes, which cannot hold a single quote. -/
def quoted : Pattern :=
  .seq (.one (· == '\x27'))
    (.seq (.maybe (.many (· != '\x27'))) (.one (· == '\x27')))

/-- What the tokens of a kind look like. -/
def pattern : Kind → Pattern
  | .opener => .one isOpening
  | .closer => .one isClosing
  | .separator => .many isSeparating
  | .operator =>
    .alt (.exactly ['!', '=']) (.alt (.one isSymbol)
      (.alt (operatorWord "and") (.alt (operatorWord "or")
        (.alt (operatorWord "xor") (operatorWord "not")))))
  | .literal => .alt quoted number
  | .word => .many isNameChar

/-- Every token has at least one character. -/
theorem consumes_pattern (kind : Kind) : kind.pattern.consumes = true := by
  cases kind <;> rfl

/-- What stands between the quotes of a quoted text; any other text is left as it is. -/
def unquote : List Char → List Char
  | [] => []
  | c :: cs =>
    if c = '\x27' ∧ cs.getLast? = some '\x27' then cs.dropLast else c :: cs

/-- The text of a token that takes up a given stretch. -/
def textOf : Kind → List Char → List Char
  | .literal, stretch => unquote stretch
  | _, stretch => stretch

end Token.Kind

end PredicateExpr
