import PredicateExpr.Nesting

/-!
# Descent into groups

Levels can be read by a function that calls itself for the group behind each opening bracket. All
its calls share one cursor, the index of the next token. A call stops at a closing bracket and
leaves it to the call around it to check that it is there and to step over it.

`descend` is such a function. That it comes to an end is not to be seen from its text, so it is
given a budget: each call, and each token after which a call goes on, takes a step from it, and
there is no answer when the budget is used up. What it did on the way is kept as the list of its
looks at the tokens.
-/

namespace PredicateExpr

/-- The level after a token that is no bracket. -/
def Level.take (level : Level) (token : Token) : Except CompileError Level :=
  match token.kind with
  | .opener | .closer | .separator => .ok level
  | .operator =>
    match Operator.ofText? token.text with
    | some op => .ok (level.push (.operator op token.offset))
    | none => .error (.unknownOperator token.text token.offset)
  | .literal =>
    match level.addArg? token.text with
    | some level => .ok level
    | none => .error (.strayLiteral token.offset)
  | .word => .ok (level.openWord token.text token.offset)

/-- A look at the tokens. -/
structure Look where
  /-- How many calls are active inside the first one. -/
  inside : Nat
  /-- The index of the token that is looked at, or the number of tokens at their end. -/
  cursor : Nat
  deriving DecidableEq, Repr

/-- What a call has done when it is over. -/
structure Descent where
  /-- Its expression, or what is wrong. -/
  result : Except CompileError Measured
  /-- Where it left the cursor. -/
  cursor : Nat
  /-- The looks that it took at the tokens, one after the other. -/
  looks : List Look

namespace Descent

/-- A call that takes a single look. -/
def halt (result : Except CompileError Measured) (cursor : Nat) : Descent :=
  ⟨result, cursor, [⟨0, cursor⟩]⟩

/-- A call that took some looks before those that are listed. -/
def behind (looks : List Look) (descent : Descent) : Descent :=
  { descent with looks := looks ++ descent.looks }

/-- The looks of a call at an opening bracket and of the call for the group behind it. -/
def entered (group : Descent) (cursor : Nat) : List Look :=
  ⟨0, cursor⟩ :: group.looks.map fun look => { look with inside := look.inside + 1 }

/-- The same looks, and one at the bracket that should close the group. -/
def checked (group : Descent) (cursor : Nat) : List Look :=
  group.entered cursor ++ [⟨0, group.cursor⟩]

end Descent

/-- A closing bracket is at the cursor. -/
def closesAt (tokens : List Token) (cursor : Nat) : Bool :=
  tokens[cursor]?.any fun token => token.kind = .closer

/-- Reads one level inside `groups` groups, from the cursor up to the closing bracket that ends it
or to the end of the tokens. -/
def descend (tokens : List Token) :
    (steps groups : Nat) → Level → (cursor : Nat) → Option Descent
  | 0, _, _, _ => none
  | steps + 1, groups, level, cursor =>
    match tokens[cursor]? with
    | none => some (.halt level.fold cursor)
    | some token =>
      match token.kind with
      | .closer => some (.halt level.fold cursor)
      | .opener =>
        if maxDepth ≤ groups then
          some (.halt (.error (.groupsTooDeep token.offset)) cursor)
        else do
          let group ← descend tokens steps (groups + 1) .start (cursor + 1)
          match group.result with
          | .error e => some ⟨.error e, group.cursor, group.entered cursor⟩
          | .ok m =>
            if closesAt tokens group.cursor then
              let level := level.push (.operand ⟨m, token.offset⟩)
              let rest ← descend tokens steps groups level (group.cursor + 1)
              some (rest.behind (group.checked cursor))
            else
              some ⟨.error (.unclosedGroup token.offset), group.cursor, group.checked cursor⟩
      | _ =>
        match level.take token with
        | .error e => some (.halt (.error e) cursor)
        | .ok level => do
          let rest ← descend tokens steps groups level (cursor + 1)
          some (rest.behind [⟨0, cursor⟩])

end PredicateExpr
