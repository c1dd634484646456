import PredicateExpr.Phrase

/-!
# What is wrong with a phrase

What is wrong with a phrase shows in its entries as they are written. An operator is bare where no
operand stands next to it on a side where it needs one, and an operand is unjoined where it begins
right behind another one. `Phrase.bare` lists the bare operators and `Phrase.unjoined?` finds the
first unjoined operand; no operator has to be given its operands for that. Of several bare operators
`Phrase.foremostBare?` is the one that a phrase is refused for; `Phrase.foremostBare?_eq` writes the
order out.
-/

namespace PredicateExpr

/-- An operator that lacks an operand. -/
structure Bare where
  /-- The operator. -/
  operator : Operator
  /-- The side on which it lacks an operand, the right one if it lacks both. -/
  side : Side
  /-- The byte at which it stands. -/
  offset : Nat
  deriving DecidableEq, Repr

/-- The complaint about a bare operator. -/
def Bare.error (bare : Bare) : CompileError :=
  .missingOperand bare.operator bare.side bare.offset

namespace Phrase

/-- Whether an operator in front of these entries is bare on its right: there is no entry, or the
first one is a binary operator. A negation is the beginning of an operand. -/
def bareRight : Phrase → Bool
  | [] => true
  | .operator (.binary _) _ :: _ => true
  | .operator .not _ :: _ => false
  | .operand _ :: _ => false

/-- The side on which an operator is bare, if any. On its left side a binary operator is bare unless
an operand stands there, and a negation never is. -/
def bareSide? (behindOperand : Bool) (op : Operator) (following : Phrase) : Option Side :=
  if following.bareRight then
    some .right
  else if op.isUnary || behindOperand then
    none
  else
    some .left

/-- The bare operators of a phrase from left to right, where an operand stands in front of the
phrase or does not. -/
def bareFrom (behindOperand : Bool) : Phrase → List Bare
  | [] => []
  | .operand _ :: following => bareFrom true following
  | .operator op offset :: following =>
    ((bareSide? behindOperand op following).map fun side => ⟨op, side, offset⟩).toList ++
      bareFrom false following

/-- The bare operators of a phrase, from left to right. -/
def bare (phrase : Phrase) : List Bare :=
  phrase.bareFrom false

/-- The last bare operator of a kind. -/
def lastBare? (phrase : Phrase) (op : Operator) : Option Bare :=
  (phrase.bare.filter fun bare => bare.operator = op).getLast?

/-- The bare operator that comes foremost: of those that bind tightest the last one. -/
def foremostBare? (phrase : Phrase) : Option Bare :=
  Operator.precedence.findSome? phrase.lastBare?

/-- A bare negation comes before a bare conjunction, this one before a bare exclusive alternative,
and a bare alternative comes last. -/
theorem foremostBare?_eq (phrase : Phrase) :
    phrase.foremostBare? =
      (phrase.lastBare? .not).or ((phrase.lastBare? (.binary .and)).or
        ((phrase.lastBare? (.binary .xor)).or (phrase.lastBare? (.binary .or)))) := by
  simp only [foremostBare?, Operator.precedence, List.findSome?_cons, List.findSome?_nil]
  cases phrase.lastBare? .not <;> cases phrase.lastBare? (.binary .and) <;>
    cases phrase.lastBare? (.binary .xor) <;> cases phrase.lastBare? (.binary .or) <;> rfl

/-- The byte of the operand with which a phrase begins, with the negations in front of it. -/
def start? : Phrase → Option Nat
  | .operand o :: _ => some o.offset
  | .operator .not offset :: _ => some offset
  | _ => none

/-- The byte of the first operand that begins right behind another one. -/
def unjoined? : Phrase → Option Nat
  | [] => none
  | .operand _ :: following => (start? following).or (unjoined? following)
  | .operator _ _ :: following => unjoined? following

end Phrase

end PredicateExpr
