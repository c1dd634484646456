import PredicateExpr.Operator

/-!
# Errors of an expression

Turning text into an expression fails with one of the causes listed here. Each cause carries the
byte at which it was detected, and `CompileError.message` words it. Resolving and evaluating an
expression never fail.
-/

namespace PredicateExpr

/-- The side of an operator on which an operand is missing. -/
inductive Side
  | left
  | right
  deriving DecidableEq, Repr

/-- The name of a side in messages. -/
def Side.name : Side → String
  | .left => "left"
  | .right => "right"

/-- Why a text, or a sequence of tokens, is no expression. -/
inductive CompileError
  /-- A stretch of text that belongs to no token. -/
  | unrecognised (fragment : String) (offset : Nat)
  /-- A literal that follows no predicate name. -/
  | strayLiteral (offset : Nat)
  /-- An opening bracket with too many groups open around it. -/
  | groupsTooDeep (offset : Nat)
  /-- An opening bracket that nothing closes. -/
  | unclosedGroup (offset : Nat)
  /-- A closing bracket that closes nothing. -/
  | strayCloser (offset : Nat)
  /-- An operand whose tree grew too tall. -/
  | operatorsTooDeep (offset : Nat)
  /-- An operand that nothing joins to the one before it. -/
  | missingOperator (offset : Nat)
  /-- An operator without an operand on one side. -/
  | missingOperand (operator : Operator) (side : Side) (offset : Nat)
  /-- An operator token whose text spells no operator. -/
  | unknownOperator (text : String) (offset : Nat)
  deriving DecidableEq, Repr

namespace CompileError

/-- The byte that an error points at. -/
def offset : CompileError → Nat
  | unrecognised _ offset => offset
  | strayLiteral offset => offset
  | groupsTooDeep offset => offset
  | unclosedGroup offset => offset
  | strayCloser offset => offset
  | operatorsTooDeep offset => offset
  | missingOperator offset => offset
  | missingOperand _ _ offset => offset
  | unknownOperator _ offset => offset

/-- The same error at another byte. -/
def mapOffset (f : Nat → Nat) : CompileError → CompileError
  | unrecognised fragment offset => unrecognised fragment (f offset)
  | strayLiteral offset => strayLiteral (f offset)
  | groupsTooDeep offset => groupsTooDeep (f offset)
  | unclosedGroup offset => unclosedGroup (f offset)
  | strayCloser offset => strayCloser (f offset)
  | operatorsTooDeep offset => operatorsTooDeep (f offset)
  | missingOperator offset => missingOperator (f offset)
  | missingOperand operator side offset => missingOperand operator side (f offset)
  | unknownOperator text offset => unknownOperator text (f offset)

/-- The place of an error, as every message gives it. -/
def place (offset : Nat) : String :=
  s!"at byte {offset} (zero-based)"

/-- The wording of an error. -/
def message : CompileError → String
  | unrecognised fragment offset => s!"unrecognised input `{fragment}` {place offset}"
  | strayLiteral offset => s!"literal without a preceding predicate name {place offset}"
  | groupsTooDeep offset => s!"groups nest too deeply {place offset}"
  | unclosedGroup offset => s!"group is never closed {place offset}"
  | strayCloser offset =>
    s!"closing delimiter without a matching opening delimiter {place offset}"
  | operatorsTooDeep offset => s!"expression nests operators too deeply {place offset}"
  | missingOperator offset => s!"expected an operator before this operand {place offset}"
  | missingOperand operator side offset =>
    s!"operator {operator.name} {place offset} is missing its {side.name} operand"
  | unknownOperator text offset => s!"unknown operator `{text}` {place offset}"

end CompileError

end PredicateExpr
