import PredicateExpr.Assignment
import PredicateExpr.Condition.Basic

/-!
# Reports

A report shows, for each of several expressions, the tree and the value under given assignments, or
why the text is no expression; the tokens are shown on request. It also counts the expressions that
were rejected. The entry of an expression depends on no other expression.
-/

namespace PredicateExpr

/-- What a report says about an expression that was accepted. -/
structure Finding where
  /-- The tokens, if asked for. -/
  tokens? : Option (List Token)
  /-- The rendering of the tree. -/
  tree : String
  /-- The value. -/
  value : Bool
  deriving DecidableEq, Repr

namespace Finding

/-- Reads an expression and evaluates it under given values. -/
def ofText (values : Valuation) (withTokens : Bool) (text : String) :
    Except CompileError Finding := do
  let tokens? ← if withTokens then some <$> tokenize text else pure none
  let condition ← Id.run (Condition.new (Resolver.ofFunction values.callback?) text).run
  return ⟨tokens?, condition.render, (condition.run ()).1⟩

/-- The line that shows tokens. -/
def tokenLine (tokens : List Token) : String :=
  "tokens:" ++ String.join (tokens.map fun token =>
    s!" {token.kind.name}:\"{token.text}\"@{token.offset}") ++ "\n"

/-- The lines about an expression that was accepted. -/
def render (finding : Finding) : String :=
  (finding.tokens?.map tokenLine).getD "" ++ s!"tree:   {finding.tree}\n"
    ++ s!"result: {Text.ofBool finding.value}\n"

end Finding

/-- The complaint about a text that is no expression. -/
def CompileError.reportMessage (error : CompileError) : String :=
  s!"invalid expression: {error.message}"

/-- The text about several expressions, and how many of them were rejected. -/
structure Report where
  /-- The number of expressions rejected. -/
  failures : Nat
  /-- The text. -/
  output : String
  deriving DecidableEq, Repr

namespace Report

/-- The report on no expression. -/
def empty : Report :=
  ⟨0, ""⟩

/-- One report after another. -/
def append (first second : Report) : Report :=
  ⟨first.failures + second.failures, first.output ++ second.output⟩

instance : Append Report :=
  ⟨append⟩

/-- The report on one expression, given what was found out about it. -/
def entry (text : String) (outcome : Except CompileError Finding) : Report :=
  let heading := text ++ "\n- - - -\n"
  match outcome with
  | .ok finding => ⟨0, heading ++ finding.render ++ "\n"⟩
  | .error error => ⟨1, heading ++ s!"error:  {error.reportMessage}\n" ++ "\n"⟩

/-- The report on several expressions under given values. -/
def ofTexts (values : Valuation) (withTokens : Bool) (texts : List String) : Report :=
  texts.foldl (fun report text => report ++ entry text (Finding.ofText values withTokens text))
    empty

end Report

/-- The expressions reported on when none are given. -/
def demonstration : List String :=
  ["a or b and c", "(a or b) and c", "(a or b xor orc -800) & d ^ e | func -0.15 0.17 'thing'"]

end PredicateExpr
