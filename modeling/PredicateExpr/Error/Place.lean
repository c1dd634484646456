import PredicateExpr.Grammar
import PredicateExpr.Token.Scanner
import PredicateExpr.Token.Source
import PredicateExpr.Token.Span

/-!
# What an error points at

An error says at which byte it was detected. This is where an unrecognised stretch begins, or where
one of the tokens starts: `CompileError.PointsAt` says which token an error can mean, by what is
wrong with it, and `Token.StandsIn` what is to be found at the byte of a token. Both together are
`CompileError.PointsIn`. What the text begins with at the byte of an error can be told from the
error alone; this is `CompileError.Heads`.
-/

namespace PredicateExpr

open Grammar (Derives Spells)
open Text

namespace Token

/-- A token with which an operand begins: a name, an opening bracket or a negation. -/
def BeginsOperand (token : Token) : Prop :=
  token.kind = .word ∨ token.kind = .opener ∨ Spells token .not

/-- A token with which an operand ends: a name, the last argument of one, or a closing bracket. -/
def EndsOperand (token : Token) : Prop :=
  token.kind = .word ∨ token.kind = .literal ∨ token.kind = .closer

/-- A token that is found in a text at the byte at which it starts. -/
structure StandsIn (text : String) (token : Token) : Prop where
  /-- The text of the token is one that its kind has. -/
  legal : token.Legal
  /-- The token takes up something. -/
  span_ne : token.span text.toList ≠ []
  /-- What the token takes up is what the text goes on with at the byte of the token. -/
  here : ∃ rest, dropBytes? token.offset text.toList = some (token.span text.toList ++ rest)
  /-- A literal is a quoted text or a number. -/
  literal : token.kind = .literal → ∃ here rest, dropBytes? token.offset text.toList = some here ∧
    (quoted? here = some (token.text.toList, rest) ∨ number? here = some (token.text.toList, rest))

end Token

namespace CompileError

/-- The token that an error points at, among the tokens of an expression without separators. -/
inductive PointsAt (tokens : List Token) : CompileError → Token → Prop
  | strayLiteral {token : Token} :
      token ∈ tokens → token.kind = .literal → PointsAt tokens (.strayLiteral token.offset) token
  | groupsTooDeep {token : Token} :
      token ∈ tokens → token.kind = .opener → PointsAt tokens (.groupsTooDeep token.offset) token
  | unclosedGroup {token : Token} :
      token ∈ tokens → token.kind = .opener → PointsAt tokens (.unclosedGroup token.offset) token
  | strayCloser {token : Token} :
      token ∈ tokens → token.kind = .closer → PointsAt tokens (.strayCloser token.offset) token
  /-- The token begins an operand whose tree is too tall. -/
  | operatorsTooDeep {first : Token} {others : List Token} {t : Tree Atom} :
      first :: others <:+: tokens → Derives .expression (first :: others) t →
      maxDepth < t.height → first.BeginsOperand →
      PointsAt tokens (.operatorsTooDeep first.offset) first
  /-- The token begins an operand right behind the last token of another one. -/
  | missingOperator {left right : List Token} {last first : Token} {l r : Tree Atom} :
      left ++ last :: first :: right <:+: tokens → Derives .expression (left ++ [last]) l →
      Derives .expression (first :: right) r → last.EndsOperand → first.BeginsOperand →
      PointsAt tokens (.missingOperator first.offset) first
  | missingOperand {token : Token} {op : Operator} (side : Side) :
      token ∈ tokens → Spells token op →
      PointsAt tokens (.missingOperand op side token.offset) token
  | unknownOperator {token : Token} :
      token ∈ tokens → token.kind = .operator → Operator.ofText? token.text = none →
      PointsAt tokens (.unknownOperator token.text token.offset) token

namespace PointsAt

variable {tokens tokens' : List Token} {error : CompileError} {token : Token}

/-- An error gives the byte of the token that it points at. -/
theorem offset_eq (h : error.PointsAt tokens token) : error.offset = token.offset := by
  cases h <;> rfl

/-- The token that an error points at is one of the tokens. -/
theorem mem (h : error.PointsAt tokens token) : token ∈ tokens := by
  cases h with
  | strayLiteral hmem _ | groupsTooDeep hmem _ | unclosedGroup hmem _ | strayCloser hmem _ =>
    exact hmem
  | operatorsTooDeep hwithin _ _ _ => exact hwithin.subset List.mem_cons_self
  | missingOperator hwithin _ _ _ _ => exact hwithin.subset (by simp)
  | missingOperand _ hmem _ => exact hmem
  | unknownOperator hmem _ _ => exact hmem

/-- What is wrong with some of the tokens is wrong with all of them. -/
theorem mono (h : error.PointsAt tokens token) (hwithin : tokens <:+: tokens') :
    error.PointsAt tokens' token := by
  cases h with
  | strayLiteral hmem hkind => exact .strayLiteral (hwithin.subset hmem) hkind
  | groupsTooDeep hmem hkind => exact .groupsTooDeep (hwithin.subset hmem) hkind
  | unclosedGroup hmem hkind => exact .unclosedGroup (hwithin.subset hmem) hkind
  | strayCloser hmem hkind => exact .strayCloser (hwithin.subset hmem) hkind
  | operatorsTooDeep hpart hderives htall hbegins =>
    exact .operatorsTooDeep (hpart.trans hwithin) hderives htall hbegins
  | missingOperator hpart hleft hright hends hbegins =>
    exact .missingOperator (hpart.trans hwithin) hleft hright hends hbegins
  | missingOperand side hmem hop => exact .missingOperand side (hwithin.subset hmem) hop
  | unknownOperator hmem hkind hnone => exact .unknownOperator (hwithin.subset hmem) hkind hnone

end PointsAt

/-- What stands in a text at the byte that an error about it points at: a stretch that no token was
found in, or the token that the error is about. -/
inductive PointsIn (text : String) : CompileError → Prop
  | stretch {fragment rest : List Char} {offset : Nat} :
      fragment ≠ [] → dropBytes? offset text.toList = some (fragment ++ rest) →
      PointsIn text (.unrecognised (String.ofList fragment) offset)
  | token {error : CompileError} {tokens : List Token} {token : Token} :
      tokenize text = .ok tokens → error.PointsAt tokens token → token.StandsIn text →
      PointsIn text error

/-- A text that begins like an operand: with a name, an opening bracket or a negation. -/
def OperandHeads (here : List Char) : Prop :=
  here.head?.any Token.Kind.isNameChar = true ∨ here.head?.any Token.Kind.isOpening = true ∨
    ∃ token, Spells token .not ∧ token.text.toList <+: here

/-- What a text begins with at the byte that an error about it points at. No error about a text says
that an operator is unknown. -/
def Heads : CompileError → List Char → Prop
  | unrecognised fragment _, here => fragment.toList <+: here
  | strayLiteral _, here =>
    (Token.quoted? here).isSome = true ∨ (Token.number? here).isSome = true
  | groupsTooDeep _, here => here.head?.any Token.Kind.isOpening = true
  | unclosedGroup _, here => here.head?.any Token.Kind.isOpening = true
  | strayCloser _, here => here.head?.any Token.Kind.isClosing = true
  | operatorsTooDeep _, here => OperandHeads here
  | missingOperator _, here => OperandHeads here
  | missingOperand op _ _, here => ∃ token, Spells token op ∧ token.text.toList <+: here
  | unknownOperator _ _, _ => False

end CompileError

end PredicateExpr
