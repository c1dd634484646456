import PredicateExpr.Phrase

/-!
# Passes in place

A phrase can be kept in numbered slots and worked on where it stands. `Phrase.sweep` visits the
slots from the last one to the first. An operator of the pass takes the operand behind it out of its
slot, and a binary one also the operand in front of it. Entries behind an emptied slot move up by
one, so that a binary operator has come to stand in the slot of its left operand. There the result
is put, and the visit goes on in front of it.

Some of this could go wrong for reasons that have nothing to do with the phrase: a slot is not there
any more, what is taken out of a slot is not what was seen in it, or an operator does not join the
operands that it was given. Such a `Slip` ends the pass, so that it does not go unnoticed.
-/

namespace PredicateExpr

/-- What can go wrong with the slots of a phrase. -/
inductive Slip
  /-- A slot is visited, emptied or filled that is not there. -/
  | missingSlot
  /-- An operator is taken out of the slot of an operand. -/
  | notOperand
  /-- An operator is given two operands and takes one. -/
  | notBinary
  deriving DecidableEq, Repr

/-- What ends a pass in place. -/
inductive Halt
  /-- Something is wrong with the phrase. -/
  | fault (error : CompileError)
  /-- Something went wrong with its slots. -/
  | slip (slip : Slip)
  deriving DecidableEq, Repr

namespace Phrase

/-- The entry in a slot, and the phrase without it. -/
def remove? (phrase : Phrase) (slot : Nat) : Option (Piece × Phrase) :=
  phrase[slot]?.map fun piece => (piece, phrase.eraseIdx slot)

/-- Takes an operand out of its slot, or complains that none is there. -/
def takeOperand (phrase : Phrase) (slot : Nat) (missing : CompileError) :
    Except Halt (Operand × Phrase) :=
  match phrase[slot]? with
  | some (.operand _) =>
    match phrase.remove? slot with
    | some (.operand o, phrase) => .ok (o, phrase)
    | some (.operator _ _, _) => .error (.slip .notOperand)
    | none => .error (.slip .missingSlot)
  | _ => .error (.fault missing)

/-- Fills a slot with an operand. -/
def put (phrase : Phrase) (slot : Nat) (o : Operand) : Except Halt Phrase :=
  if slot < phrase.length then
    .ok (phrase.set slot (.operand o))
  else
    .error (.slip .missingSlot)

/-- Gives the operators `op` in the first slots of a phrase their operands, from right to left. -/
def sweep (op : Operator) : (slots : Nat) → Phrase → Except Halt Phrase
  | 0, phrase => .ok phrase
  | slot + 1, phrase =>
    match phrase[slot]? with
    | none => .error (.slip .missingSlot)
    | some (.operand _) => sweep op slot phrase
    | some (.operator other offset) =>
      if other ≠ op then
        sweep op slot phrase
      else do
        let (right, phrase) ←
          phrase.takeOperand (slot + 1) (.missingOperand other .right offset)
        if other.isUnary then
          let o ← (right.negate offset).mapError .fault
          sweep op slot (← phrase.put slot o)
        else
          match slot with
          | 0 => .error (.fault (.missingOperand other .left offset))
          | slot + 1 =>
            let (left, phrase) ← phrase.takeOperand slot (.missingOperand other .left offset)
            match Tree.join? other left.tree right.tree with
            | none => .error (.slip .notBinary)
            | some tree =>
              let joined : Operand := ⟨⟨tree, max left.height right.height + 1⟩, left.offset⟩
              let o ← joined.accept.mapError .fault
              sweep op slot (← phrase.put slot o)

/-- Gives every operator `op` of a phrase its operands, in place. -/
def passInPlace (phrase : Phrase) (op : Operator) : Except Halt Phrase :=
  phrase.sweep op phrase.length

end Phrase

end PredicateExpr
