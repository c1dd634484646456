import PredicateExpr.Phrase
import PredicateExpr.Token

/-!
# Nested groups

Brackets divide the tokens of an expression into levels. Each level collects a phrase, a name
collects the literals that follow it, and a closing bracket folds the phrase of its level into an
operand of the level around it. `Nesting` holds the levels that are open while tokens are read, one
token after the other, so that where reading stands is a value and not a position.

`readLevel` reads one level with all groups inside it, up to the bracket that closes it, and `parse`
reads a whole expression.
-/

namespace PredicateExpr

/-! ## A level being read -/

/-- A name whose arguments are still being read. -/
structure OpenWord where
  /-- The name, with the arguments read so far. -/
  atom : Atom
  /-- The byte at which the name starts. -/
  offset : Nat
  deriving DecidableEq, Repr

/-- What has been read of one level. -/
structure Level where
  /-- The entries of its phrase, the latest first. -/
  latest : List Piece
  /-- The name at the end of what was read, if it still takes arguments. -/
  word? : Option OpenWord
  deriving DecidableEq, Repr

namespace Level

/-- A level of which nothing has been read. -/
def start : Level :=
  ⟨[], none⟩

/-- The entries of a level, the latest first, with the name at its end taken as complete. -/
def pieces (level : Level) : List Piece :=
  match level.word? with
  | none => level.latest
  | some word => .operand (.ofAtom word.atom word.offset) :: level.latest

/-- A level with one more entry, which completes the name before it. -/
def push (level : Level) (piece : Piece) : Level :=
  ⟨piece :: level.pieces, none⟩

/-- A level with a new name at its end. -/
def openWord (level : Level) (name : String) (offset : Nat) : Level :=
  ⟨level.pieces, some ⟨⟨name, []⟩, offset⟩⟩

/-- A level with one more argument for the name at its end, if there is one. -/
def addArg? (level : Level) (arg : String) : Option Level :=
  level.word?.map fun word =>
    { level with word? := some { word with
        atom := { word.atom with args := word.atom.args ++ [arg] } } }

/-- The expression of a level. -/
def fold (level : Level) : Except CompileError Measured :=
  Phrase.fold level.pieces.reverse

end Level

/-! ## The open levels -/

/-- The levels that are open at some place of an expression. -/
structure Nesting where
  /-- The innermost level. -/
  level : Level
  /-- The levels around it, the nearest first, each with the byte of the bracket that opened the
  level inside it. -/
  outer : List (Level × Nat)
  deriving DecidableEq, Repr

namespace Nesting

/-- One level, with nothing read. -/
def start : Nesting :=
  ⟨.start, []⟩

/-- The open levels after one more token, where `groups` is the number of groups around the first
level. There is no answer for a closing bracket when no level was opened after the first. -/
def next (groups : Nat) (nesting : Nesting) (token : Token) :
    Except CompileError (Option Nesting) :=
  match token.kind with
  | .opener =>
    if groups + nesting.outer.length < maxDepth then
      .ok (some ⟨.start, (nesting.level, token.offset) :: nesting.outer⟩)
    else
      .error (.groupsTooDeep token.offset)
  | .closer =>
    match nesting.outer with
    | [] => .ok none
    | (around, offset) :: outer => do
      let group ← nesting.level.fold
      return some ⟨around.push (.operand ⟨group, offset⟩), outer⟩
  | .separator => .ok (some nesting)
  | .operator =>
    match Operator.ofText? token.text with
    | some op => .ok (some { nesting with level := nesting.level.push (.operator op token.offset) })
    | none => .error (.unknownOperator token.text token.offset)
  | .literal =>
    match nesting.level.addArg? token.text with
    | some level => .ok (some { nesting with level := level })
    | none => .error (.strayLiteral token.offset)
  | .word => .ok (some { nesting with level := nesting.level.openWord token.text token.offset })

/-- Reads tokens up to a closing bracket that closes the first level, and returns what remains. -/
def read (groups : Nat) (nesting : Nesting) :
    List Token → Except CompileError (Nesting × List Token)
  | [] => .ok (nesting, [])
  | token :: tokens => do
    match ← nesting.next groups token with
    | none => return (nesting, token :: tokens)
    | some nesting => nesting.read groups tokens

/-- The expression of the first level, once every level inside it is closed. -/
def close (nesting : Nesting) : Except CompileError Measured := do
  let group ← nesting.level.fold
  match nesting.outer with
  | [] => return group
  | (_, offset) :: _ => throw (.unclosedGroup offset)

end Nesting

/-! ## Reading expressions -/

/-- Reads one level inside `groups` groups, up to the closing bracket that ends it or to the end of
the tokens, and returns what remains. -/
def readLevel (groups : Nat) (tokens : List Token) :
    Except CompileError (Measured × List Token) := do
  let (nesting, rest) ← Nesting.start.read groups tokens
  return (← nesting.close, rest)

/-- The expression that a sequence of tokens is. -/
def parse (tokens : List Token) : Except CompileError (Tree Atom) := do
  let (expression, rest) ← readLevel 0 tokens
  match rest with
  | [] => return expression.tree
  | stray :: _ => throw (.strayCloser stray.offset)

end PredicateExpr
