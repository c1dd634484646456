import PredicateExpr.Resolution
import PredicateExpr.Valuation

/-!
# Rule tables

A rule table is a resolver written as data. The first rule that applies to an atom decides whether
the atom has a callback and what the callback answers: a fixed truth value, the value of a flag, or
the value of a flag that is then inverted. The flags are the state that all callbacks share.
-/

namespace PredicateExpr

/-- What a callback answers. -/
inductive RuleTable.Answer
  /-- Always the same truth value. -/
  | fixed (value : Bool)
  /-- The value of a flag, false if it was never set. -/
  | flag (name : String)
  /-- The value of a flag, which is inverted afterwards. -/
  | toggle (name : String)
  deriving DecidableEq, Repr

/-- An entry of a rule table. -/
structure RuleTable.Rule where
  /-- The name of the predicates to which the rule applies. -/
  name : String
  /-- The arguments they must have, if the rule is particular about them. -/
  args? : Option (List String)
  /-- What their callbacks answer, if they are given one. -/
  answer? : Option RuleTable.Answer
  deriving DecidableEq, Repr

/-- Rules, of which the first that applies counts. -/
abbrev RuleTable := List RuleTable.Rule

namespace RuleTable

/-- The value of a flag. -/
def flagValue (flags : Valuation) (name : String) : Bool :=
  (flags.get? name).getD false

/-- The callback that gives an answer. -/
def Answer.callback : Answer → Callback Valuation
  | .fixed value => fun flags => (value, flags)
  | .flag name => fun flags => (flagValue flags name, flags)
  | .toggle name => fun flags =>
    let value := flagValue flags name
    (value, flags.insert name (!value))

/-- The name of a rule that applies to predicates of every name. -/
def anyName : String :=
  "*"

/-- Whether a rule applies to an atom. -/
def Rule.applies (rule : Rule) (atom : Atom) : Bool :=
  (rule.name == atom.name || rule.name == anyName) && rule.args?.all (· == atom.args)

/-- The callback that a table gives to an atom. -/
def callback? (rules : RuleTable) (atom : Atom) : Option (Callback Valuation) :=
  (rules.find? (·.applies atom)).bind fun rule => rule.answer?.map Answer.callback

end RuleTable

end PredicateExpr
