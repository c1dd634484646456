import PredicateExpr.Atom
import PredicateExpr.Token
import PredicateExpr.Tree.Basic

/-!
# What an expression says, in order

A tree and the tokens that it was read from say the same things in the same order. `Tree.inOrder`
lists the nodes of a tree as they are written: an operator stands between its operands, and a
negation in front of its own. `Token.transcript` lists what tokens say when separators are left out,
and brackets too, unless there is nothing between them. It looks at the tokens one by one and knows
nothing of precedence or of pairs of brackets.
-/

namespace PredicateExpr

namespace Tree

variable {α : Type}

/-- The nodes of an expression in the order in which they are written. -/
def inOrder : Tree α → List (Node α)
  | .empty => [.empty]
  | .leaf a => [.leaf a]
  | .not t => .operator .not :: t.inOrder
  | .join c l r => l.inOrder ++ .operator (.binary c) :: r.inOrder

/-- The label of a node that is a leaf. -/
def Node.label? : Node α → Option α
  | .leaf a => some a
  | _ => none

/-- The operator of a node that has one. -/
def Node.operator? : Node α → Option Operator
  | .operator op => some op
  | _ => none

/-- The operators of an expression in the order in which they are written. -/
def operators (t : Tree α) : List Operator :=
  t.inOrder.filterMap Node.operator?

theorem operators_not (t : Tree α) : t.not.operators = .not :: t.operators :=
  rfl

theorem operators_join (c : Connective) (l r : Tree α) :
    (join c l r).operators = l.operators ++ .binary c :: r.operators := by
  rw [operators, inOrder, List.filterMap_append]
  rfl

/-- The leaves from left to right are the leaves in the order in which they are written. -/
theorem filterMap_label?_inOrder (t : Tree α) : t.inOrder.filterMap Node.label? = t.leaves := by
  induction t with
  | empty => rfl
  | leaf a => rfl
  | not t ih => rw [inOrder, List.filterMap_cons_none rfl, ih, leaves]
  | join c l r ihl ihr =>
    rw [inOrder, List.filterMap_append, List.filterMap_cons_none rfl, ihl, ihr, leaves]

end Tree

namespace Token

/-- The arguments at the beginning of some tokens: the texts of the literals up to the next token
that is neither a literal nor a separator. -/
def argsAhead : List Token → List String
  | [] => []
  | token :: tokens =>
    match token.kind with
    | .literal => token.text :: argsAhead tokens
    | .separator => argsAhead tokens
    | _ => []

/-- The names among some tokens, each with the arguments behind it. -/
def atoms : List Token → List Atom
  | [] => []
  | token :: tokens =>
    match token.kind with
    | .word => ⟨token.text, argsAhead tokens⟩ :: atoms tokens
    | _ => atoms tokens

/-- Whether tokens begin with a closing bracket, separators apart. -/
def closesAhead : List Token → Bool
  | [] => false
  | token :: tokens =>
    match token.kind with
    | .closer => true
    | .separator => closesAhead tokens
    | _ => false

/-- What a token says, given the tokens behind it. A word speaks for its arguments, too, and an
opening bracket has something to say only if its group is empty. An operator token that spells no
operator says something unknown. -/
def note (token : Token) (behind : List Token) : List (Option (Tree.Node Atom)) :=
  match token.kind with
  | .opener => if closesAhead behind then [some .empty] else []
  | .operator => [(Operator.ofText? token.text).map .operator]
  | .word => [some (.leaf ⟨token.text, argsAhead behind⟩)]
  | .closer => []
  | .separator => []
  | .literal => []

/-- What tokens say, one after the other. -/
def notes : List Token → List (Option (Tree.Node Atom))
  | [] => []
  | token :: behind => token.note behind ++ notes behind

/-- What tokens say as a whole: the empty expression if there is nothing but separators. -/
def transcript (tokens : List Token) : List (Option (Tree.Node Atom)) :=
  if tokens.all (·.kind = .separator) then [some .empty] else notes tokens

end Token

end PredicateExpr
