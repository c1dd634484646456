import PredicateExpr.Text.Utf8
import PredicateExpr.Tree.Source

/-!
# Tokens as source text

Each kind of token has its own texts (`Token.Legal`), and a token with such a text can be written:
a bracket as it is, an operator with a blank behind it, a name with a comma behind it, and a literal
between quotes. Written one after the other, tokens are read again in the same order;
`Token.placedFrom` says where each of them starts.
-/

namespace PredicateExpr

open Text

namespace Token

/-- Whether a text is one that tokens of a kind have. No separator is kept as a token. -/
def Kind.Admits : Kind → String → Prop
  | .opener, text => text ∈ ["(", "[", "\x7b"]
  | .closer, text => text ∈ [")", "]", "\x7d"]
  | .separator, _ => False
  | .operator, text => text ∈ ["!=", "&", "|", "^", "!", "and", "or", "xor", "not"]
  | .literal, text => Atom.ArgWritable text
  | .word, text => Atom.NameWritable text

instance : (kind : Kind) → (text : String) → Decidable (kind.Admits text)
  | .opener, text => inferInstanceAs (Decidable (text ∈ _))
  | .closer, text => inferInstanceAs (Decidable (text ∈ _))
  | .separator, _ => inferInstanceAs (Decidable False)
  | .operator, text => inferInstanceAs (Decidable (text ∈ _))
  | .literal, text => inferInstanceAs (Decidable (Atom.ArgWritable text))
  | .word, text => inferInstanceAs (Decidable (Atom.NameWritable text))

/-- A token with a text that tokens of its kind have. -/
def Legal (token : Token) : Prop :=
  token.kind.Admits token.text

instance (token : Token) : Decidable token.Legal :=
  inferInstanceAs (Decidable (token.kind.Admits token.text))

/-- No separator is legal. -/
theorem Legal.kind_ne {token : Token} (h : token.Legal) : token.kind ≠ .separator := by
  intro hkind
  rw [Legal, hkind] at h
  cases h

/-- A token as source text. -/
def source (token : Token) : List Char :=
  match token.kind with
  | .opener => token.text.toList
  | .closer => token.text.toList
  | .separator => token.text.toList
  | .operator => token.text.toList ++ [' ']
  | .literal => '\x27' :: token.text.toList ++ ['\x27']
  | .word => token.text.toList ++ [',']

/-- Tokens at the bytes at which their source texts start, when these are written one after the
other from a given byte on. -/
def placedFrom (offset : Nat) (tokens : List Token) : List Token :=
  tokens.mapIdx fun i token =>
    { token with offset := offset + utf8Size ((tokens.take i).flatMap source) }

/-- The first token is placed at the beginning, the others behind its source text. -/
theorem placedFrom_cons (offset : Nat) (token : Token) (tokens : List Token) :
    placedFrom offset (token :: tokens) =
      { token with offset } :: placedFrom (offset + utf8Size token.source) tokens := by
  simp [placedFrom, List.mapIdx_cons, Nat.add_assoc]

end Token

end PredicateExpr
