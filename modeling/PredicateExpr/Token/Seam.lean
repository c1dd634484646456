import PredicateExpr.Token.Span

/-!
# Between the tokens of a text

A seam of a text is a place that no token is cut at: an end of the text, an end of a token, or a
place among separators. `Token.spaced` says what becomes of a token when blanks are put in at some
place, and `Token.shift` what becomes of one when a text is put in front.
-/

namespace PredicateExpr

open Text

namespace Token

/-- The words that are operators where a blank follows. -/
def operatorWords : List String :=
  ["and", "or", "xor", "not"]

/-- A token that starts some bytes further on. -/
def shift (n : Nat) (token : Token) : Token :=
  { token with offset := token.offset + n }

/-- A token of a text after blanks of `n` bytes were put in at byte `p`. It is moved if it starts
there or later. A word that ends there is an operator now, if it is spelled like one. -/
def spaced (cs : List Char) (p n : Nat) (token : Token) : Token where
  kind :=
    if token.kind = .word ∧ token.text ∈ operatorWords ∧ token.stop cs = p then .operator
    else token.kind
  text := token.text
  offset := if p ≤ token.offset then token.offset + n else token.offset

end Token

/-- What was read of a text that starts some bytes further on. -/
def Scan.shift (scan : Scan) (n : Nat) : Scan where
  tokens := scan.tokens.map (Token.shift n)
  stop? := scan.stop?.map fun stop => { stop with offset := stop.offset + n }

/-- What was read of a text, behind tokens that were read in front of it. -/
def Scan.behind (scan : Scan) (tokens : List Token) : Scan :=
  { scan with tokens := tokens ++ scan.tokens }

/-- A byte position of a text at which none of its tokens is cut. -/
inductive Seam (cs : List Char) (tokens : List Token) : Nat → Prop
  /-- The beginning of the text. -/
  | start : Seam cs tokens 0
  /-- The end of the text. -/
  | finish : Seam cs tokens (utf8Size cs)
  /-- The beginning of a token. -/
  | offset {token : Token} : token ∈ tokens → Seam cs tokens token.offset
  /-- The end of a token. -/
  | stop {token : Token} : token ∈ tokens → Seam cs tokens (token.stop cs)
  /-- A place in front of a character that belongs to no token. -/
  | separator {before after : List Char} {c : Char} : cs = before ++ c :: after →
      (∀ token ∈ tokens, utf8Size before < token.offset ∨ token.stop cs ≤ utf8Size before) →
      Seam cs tokens (utf8Size before)

end PredicateExpr
