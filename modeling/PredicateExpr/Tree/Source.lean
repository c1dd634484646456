import PredicateExpr.Atom
import PredicateExpr.Token.Shape
import PredicateExpr.Tree.Basic

/-!
# Expressions as source text

`Tree.source` writes an expression as a text from which it can be read again. Every operand stands
in brackets, so that precedence does not matter, and a comma behind every name keeps names that are
spelled like operators apart from operators.

Only some trees can be written. `Tree.Writable` says what their leaves are like: names are words,
and no argument holds a single quote.
-/

namespace PredicateExpr

/-- A name that a word token can have. -/
def Atom.NameWritable (name : String) : Prop :=
  name ≠ "" ∧ ∀ c ∈ name.toList, Token.Kind.isNameChar c = true

instance (name : String) : Decidable (Atom.NameWritable name) :=
  @instDecidableAnd _ _ inferInstance (List.decidableBAll _ _)

/-- An argument that a quoted literal can hold. -/
def Atom.ArgWritable (arg : String) : Prop :=
  '\x27' ∉ arg.toList

instance (arg : String) : Decidable (Atom.ArgWritable arg) :=
  inferInstanceAs (Decidable (¬ _))

/-- An atom that can be written. -/
structure Atom.Writable (atom : Atom) : Prop where
  /-- Its name is a word. -/
  name : Atom.NameWritable atom.name
  /-- Its arguments can be quoted. -/
  args : ∀ arg ∈ atom.args, Atom.ArgWritable arg

instance (atom : Atom) : Decidable atom.Writable :=
  decidable_of_iff (Atom.NameWritable atom.name ∧ ∀ arg ∈ atom.args, Atom.ArgWritable arg)
    ⟨fun h => ⟨h.1, h.2⟩, fun h => ⟨h.name, h.args⟩⟩

/-- Arguments as source text, each in quotes and with a comma behind it. -/
def Atom.argsSource (args : List String) : List Char :=
  args.flatMap fun arg => '\x27' :: arg.toList ++ ['\x27', ',']

/-- An atom as source text. -/
def Atom.source (atom : Atom) : List Char :=
  atom.name.toList ++ ',' :: Atom.argsSource atom.args

/-- The symbol of a connective. -/
def Connective.symbol : Connective → Char
  | .and => '&'
  | .xor => '^'
  | .or => '|'

namespace Tree

/-- An expression whose leaves can be written. -/
def Writable (t : Tree Atom) : Prop :=
  ∀ atom ∈ t.leaves, atom.Writable

instance (t : Tree Atom) : Decidable t.Writable :=
  List.decidableBAll _ _

/-- A text in round brackets. -/
def bracketed (cs : List Char) : List Char :=
  '(' :: cs ++ [')']

/-- An expression as source text. -/
def source : Tree Atom → List Char
  | .empty => ['(', ')']
  | .leaf atom => atom.source
  | .not t => '!' :: bracketed t.source
  | .join c l r => bracketed l.source ++ c.symbol :: bracketed r.source

end Tree

end PredicateExpr
