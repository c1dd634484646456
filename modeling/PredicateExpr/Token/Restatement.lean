import PredicateExpr.Grammar

/-!
# The same tokens in another form

Tokens say the same in more than one form: brackets may be of another style, an operator may have
another spelling, separators may be anywhere or be left out, and everything may stand at other
bytes. `Token.Restates` relates two forms of one token, and `Token.Restatement` two forms of a row
of tokens. Where a token stands in the second form is a function of where it stands in the first.
-/

namespace PredicateExpr.Token

open Grammar (Spells)

/-- Another form of a token, at the byte that `f` gives. There is nothing to keep of the texts of
brackets and separators. -/
structure Restates (f : Nat → Nat) (token other : Token) : Prop where
  /-- The token is of the same kind. -/
  kind : other.kind = token.kind
  /-- It has been moved. -/
  offset : other.offset = f token.offset
  /-- A name is the same. -/
  word : token.kind = .word → other.text = token.text
  /-- So is a literal. -/
  literal : token.kind = .literal → other.text = token.text
  /-- An operator may have another spelling, and what spells no operator is the same. -/
  operator : token.kind = .operator →
    other.text = token.text ∨ ∃ op, Spells token op ∧ Spells other op

/-- Another form of a row of tokens. -/
inductive Restatement (f : Nat → Nat) : List Token → List Token → Prop
  /-- Nothing has been done to nothing. -/
  | nil : Restatement f [] []
  /-- A token stands in another form. -/
  | cons {token other : Token} {tokens others : List Token} :
      Restates f token other → Restatement f tokens others →
      Restatement f (token :: tokens) (other :: others)
  /-- A separator was inserted. -/
  | insert {separator : Token} {tokens others : List Token} :
      separator.kind = .separator → Restatement f tokens others →
      Restatement f tokens (separator :: others)
  /-- A separator was deleted. -/
  | delete {separator : Token} {tokens others : List Token} :
      separator.kind = .separator → Restatement f tokens others →
      Restatement f (separator :: tokens) others

end PredicateExpr.Token
