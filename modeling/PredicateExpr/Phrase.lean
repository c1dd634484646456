import PredicateExpr.Atom
import PredicateExpr.Error
import PredicateExpr.Tree.Basic

/-!
# Phrases

Between two brackets an expression is a row of operands and operators, a phrase. `Phrase.fold` joins
its operands: the operators are taken by precedence, those that bind tighter first, and among equal
ones from right to left, so that chains lean to the right. An operand remembers where it starts and
how tall its tree is, and a tree taller than `maxDepth` is refused as soon as it would arise.

A phrase with nothing in it is the empty expression. Operands that are left side by side once all
operators are taken have nothing that joins them.
-/

namespace PredicateExpr

/-- The tallest tree accepted, and the largest number of groups around one bracket. -/
def maxDepth : Nat := 256

/-- An expression together with the height of its tree. -/
structure Measured where
  /-- The expression. -/
  tree : Tree Atom
  /-- Its height. -/
  height : Nat
  deriving DecidableEq, Repr

/-- An expression that stands in a phrase. -/
structure Operand extends Measured where
  /-- The byte at which it starts. -/
  offset : Nat
  deriving DecidableEq, Repr

/-- An entry of a phrase. -/
inductive Piece
  /-- An operator that still waits for its operands. -/
  | operator (op : Operator) (offset : Nat)
  /-- An expression. -/
  | operand (operand : Operand)
  deriving DecidableEq, Repr

/-- Operators and operands in the order in which they are written. -/
abbrev Phrase := List Piece

/-- The byte at which an entry starts. -/
def Piece.offset : Piece → Nat
  | .operator _ offset => offset
  | .operand o => o.offset

namespace Operand

/-- A single atom that starts at a given byte. -/
def ofAtom (atom : Atom) (offset : Nat) : Operand :=
  ⟨⟨.leaf atom, 1⟩, offset⟩

/-- An operand is accepted unless its tree is too tall. -/
def accept (o : Operand) : Except CompileError Operand :=
  if maxDepth < o.height then .error (.operatorsTooDeep o.offset) else .ok o

/-- The negation of an operand by an operator that stands at a given byte. -/
def negate (offset : Nat) (o : Operand) : Except CompileError Operand :=
  accept ⟨⟨.not o.tree, o.height + 1⟩, offset⟩

/-- Two operands under a connective; the result starts where the left one does. -/
def join (c : Connective) (l r : Operand) : Except CompileError Operand :=
  accept ⟨⟨.join c l.tree r.tree, max l.height r.height + 1⟩, l.offset⟩

end Operand

namespace Phrase

/-- Gives the operators `op` of a phrase their operands, from right to left. The phrase comes in two
parts: the entries not yet reached, the last one first, and those already passed, in order. An
operator needs an operand right behind it, and a binary one also right in front of it. -/
def passFrom (op : Operator) : (ahead : List Piece) → (passed : Phrase) →
    Except CompileError Phrase
  | [], passed => .ok passed
  | .operand o :: ahead, passed => passFrom op ahead (.operand o :: passed)
  | .operator other offset :: ahead, passed =>
    if other ≠ op then
      passFrom op ahead (.operator other offset :: passed)
    else
      match passed with
      | .operand right :: passed =>
        match other with
        | .not => do
          let o ← right.negate offset
          passFrom op ahead (.operand o :: passed)
        | .binary c =>
          match ahead with
          | .operand left :: ahead => do
            let o ← Operand.join c left right
            passFrom op ahead (.operand o :: passed)
          | _ => .error (.missingOperand other .left offset)
      | _ => .error (.missingOperand other .right offset)

/-- Gives every operator `op` of a phrase its operands. -/
def pass (phrase : Phrase) (op : Operator) : Except CompileError Phrase :=
  passFrom op phrase.reverse []

/-- The expression that a phrase without joinable operators amounts to. -/
def only : Phrase → Except CompileError Measured
  | [] => .ok ⟨.empty, 1⟩
  | [.operand o] => .ok o.toMeasured
  | [.operator op offset] => .error (.missingOperand op .right offset)
  | _ :: extra :: _ => .error (.missingOperator extra.offset)

/-- The expression that a phrase amounts to. -/
def fold (phrase : Phrase) : Except CompileError Measured := do
  (← Operator.precedence.foldlM pass phrase).only

end Phrase

end PredicateExpr
