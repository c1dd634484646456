/-!
# Quoted text

The structural rendering of an expression shows texts between double quotes. Inside them a double
quote, a backslash and the control characters that have a letter of their own are written as
escapes; every other character stands for itself.
-/

namespace PredicateExpr.Text

/-- The spelling of one character between double quotes. -/
def escape : Char → List Char
  | '"' => ['\\', '"']
  | '\\' => ['\\', '\\']
  | '\n' => ['\\', 'n']
  | '\t' => ['\\', 't']
  | '\r' => ['\\', 'r']
  | '\x00' => ['\\', '0']
  | c => [c]

/-- A text between double quotes. -/
def quote (text : String) : String :=
  String.ofList ('"' :: text.toList.flatMap escape ++ ['"'])

end PredicateExpr.Text
