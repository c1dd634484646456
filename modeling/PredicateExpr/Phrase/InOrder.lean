import PredicateExpr.Phrase
import PredicateExpr.Tree.InOrder

/-!
# What a phrase says, in order

A phrase says the same however many of its operators have been given their operands:
`Phrase.inOrder` lists the nodes of its entries as they are written. `Phrase.waiting` lists the
operators among its entries, with their bytes.

An entry that arose from others arose from a stretch of them, `Piece.BuiltFrom`. The operands in the
stretch are part of its tree as they are, with the operators of the stretch between them.
-/

namespace PredicateExpr

/-- The nodes of an entry in the order in which they are written. -/
def Piece.inOrder : Piece → List (Tree.Node Atom)
  | .operator op _ => [.operator op]
  | .operand o => o.tree.inOrder

/-- The operator of an entry that is one, with its byte. -/
def Piece.waiting? : Piece → Option (Operator × Nat)
  | .operator op offset => some (op, offset)
  | .operand _ => none

namespace Phrase

/-- The nodes of a phrase in the order in which they are written. -/
def inOrder (phrase : Phrase) : List (Tree.Node Atom) :=
  phrase.flatMap Piece.inOrder

/-- The operators that still wait for their operands, from left to right. -/
def waiting (phrase : Phrase) : List (Operator × Nat) :=
  phrase.filterMap Piece.waiting?

/-- The tree, read in order, has the operators and the operands of the phrase one after the other.
It is not read into the operands. -/
inductive Flattens : Tree Atom → Phrase → Prop
  /-- An operand is a tree by itself. -/
  | operand (o : Operand) : Flattens o.tree [.operand o]
  /-- A negation stands in front of its operand. -/
  | not {t : Tree Atom} {p : Phrase} (offset : Nat) :
      Flattens t p → Flattens (.not t) (.operator .not offset :: p)
  /-- A connective stands between its operands. -/
  | join {c : Connective} {l r : Tree Atom} {p q : Phrase} (offset : Nat) :
      Flattens l p → Flattens r q →
      Flattens (.join c l r) (p ++ .operator (.binary c) offset :: q)

end Phrase

/-- An entry that arose from a stretch of a phrase: it starts where the first entry of the stretch
starts, and is the only one if it is an operator, or else has a tree with the entries in order. -/
def Piece.BuiltFrom (piece : Piece) (stretch : Phrase) : Prop :=
  stretch.head?.map Piece.offset = some piece.offset ∧
    match piece with
    | .operator op offset => stretch = [.operator op offset]
    | .operand o => Phrase.Flattens o.tree stretch

end PredicateExpr
