import PredicateExpr.Tree.Basic

/-!
# Expressions regrouped

Two ways to write an expression down differently that do not change what it says. A row of operands
under one operator can be bracketed in any way that joins neighbours until one expression is left
(`Tree.Brackets`), and the two operands of a connective can change places, here and there or
everywhere (`Tree.Swapped`).
-/

namespace PredicateExpr.Tree

variable {α : Type}

/-- An expression that brackets a row of operands: it is the only one of them, or it joins two
expressions that bracket the row up to some place and the row from there on. -/
inductive Brackets (op : Operator) : List (Tree α) → Tree α → Prop
  | single (t : Tree α) : Brackets op [t] t
  | join {before behind : List (Tree α)} {l r t : Tree α} :
      Brackets op before l → Brackets op behind r → join? op l r = some t →
      Brackets op (before ++ behind) t

/-- Two expressions that differ in the order of the operands of some connectives. -/
inductive Swapped : Tree α → Tree α → Prop
  | empty : Swapped .empty .empty
  | leaf (a : α) : Swapped (.leaf a) (.leaf a)
  | not {s t : Tree α} : Swapped s t → Swapped (.not s) (.not t)
  /-- A connective whose operands stay where they are. -/
  | join (c : Connective) {l r l' r' : Tree α} :
      Swapped l l' → Swapped r r' → Swapped (.join c l r) (.join c l' r')
  /-- A connective whose operands change places. -/
  | swap (c : Connective) {l r l' r' : Tree α} :
      Swapped l l' → Swapped r r' → Swapped (.join c l r) (.join c r' l')

end PredicateExpr.Tree
