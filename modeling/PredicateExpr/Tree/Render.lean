import PredicateExpr.Atom
import PredicateExpr.Text.Quoted
import PredicateExpr.Tree.Basic

/-!
# Renderings of expressions

`Tree.render` is the rendering that reports show: every operation stands in square brackets, with
the name of its operator, and the empty expression is a pair of braces. `Tree.inspect` spells the
structure of the tree out, naming each part.
-/

namespace PredicateExpr

namespace Tree

variable {α : Type}

/-- An expression as text, given the text of each leaf. -/
def renderWith (text : α → String) : Tree α → String
  | .empty => "\x7b\x7d"
  | .leaf a => text a
  | .not t => "[ NOT " ++ t.renderWith text ++ " ]"
  | .join c l r => "[ " ++ l.renderWith text ++ " " ++ c.name ++ " " ++ r.renderWith text ++ " ]"

/-- An expression over atoms as text. -/
def render (t : Tree Atom) : String :=
  t.renderWith Atom.render

/-- The text of a tree depends on its leaves through their texts only. -/
theorem renderWith_map {β : Type} (text : β → String) (f : α → β) (t : Tree α) :
    (t.map f).renderWith text = t.renderWith (text ∘ f) := by
  induction t with
  | empty => rfl
  | leaf a => rfl
  | not t ih => simp [map, renderWith, ih]
  | join c l r ihl ihr => simp [map, renderWith, ihl, ihr]

end Tree

/-! ## The structure of a tree in full -/

/-- A record, with the text of each field. -/
def inspectRecord (name : String) (fields : List (String × String)) : String :=
  name ++ " \x7b " ++ ", ".intercalate (fields.map fun field => field.1 ++ ": " ++ field.2)
    ++ " \x7d"

/-- A list, with the text of each entry. -/
def inspectList (entries : List String) : String :=
  "[" ++ ", ".intercalate entries ++ "]"

/-- The name of a connective among the parts of a tree. -/
def Connective.inspect : Connective → String
  | .and => "And"
  | .xor => "Xor"
  | .or => "Or"

/-- An operation with the texts of its operands; a negation has no left operand. -/
def inspectOperation (operator left right : String) : String :=
  "Operation(" ++
    inspectRecord "Operation" [("operator", operator), ("left", left), ("right", right)] ++ ")"

/-- The structure of an expression, given the text of each leaf. -/
def Tree.inspect {α : Type} (text : α → String) : Tree α → String
  | .empty => "Empty"
  | .leaf a => "Leaf(" ++ text a ++ ")"
  | .not t => inspectOperation "Not" "None" (t.inspect text)
  | .join c l r => inspectOperation c.inspect ("Some(" ++ l.inspect text ++ ")") (r.inspect text)

end PredicateExpr
