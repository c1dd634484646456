import PredicateExpr.Tree.Basic

/-!
# Reverse Polish order

A tree can be described by a list of instructions for a stack of trees: some push an expression
without operands, others replace the expressions on top of the stack by an operation on them. Such
a description needs no brackets, and it knows no limit on the height of a tree.
-/

namespace PredicateExpr

namespace Tree

variable {α : Type}

/-- An instruction for a stack of trees. -/
inductive Instruction (α : Type)
  /-- Push the empty expression. -/
  | empty
  /-- Push a leaf. -/
  | leaf (label : α)
  /-- Negate the expression on top. -/
  | negate
  /-- Join the two expressions on top, of which the upper one is the right operand. -/
  | join (op : Operator)
  deriving DecidableEq, Repr

/-- Why instructions build no tree. -/
inductive BuildError
  /-- There are fewer expressions on the stack than are needed. -/
  | missing
  /-- The operator asked for does not join two expressions. -/
  | notBinary
  deriving DecidableEq, Repr

/-- The stack after one instruction. -/
def Instruction.apply : Instruction α → List (Tree α) → Except BuildError (List (Tree α))
  | .empty, stack => .ok (.empty :: stack)
  | .leaf a, stack => .ok (.leaf a :: stack)
  | .negate, operand :: stack => .ok (.not operand :: stack)
  | .join op, right :: left :: stack =>
    match join? op left right with
    | some t => .ok (t :: stack)
    | none => .error .notBinary
  | _, _ => .error .missing

/-- The expression on top of the stack after all instructions. -/
def ofReversePolish (instructions : List (Instruction α)) : Except BuildError (Tree α) := do
  let stack ← instructions.foldlM (fun stack instruction => instruction.apply stack) []
  match stack with
  | [] => throw .missing
  | t :: _ => return t

end Tree

end PredicateExpr
