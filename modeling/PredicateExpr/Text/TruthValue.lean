import PredicateExpr.Text.Blank

/-!
# Truth values as text

A truth value is written as `true` or `false`. It may be read from several words, in any ASCII
letter case and with blanks around them.
-/

namespace PredicateExpr.Text

/-- The spelling of a truth value. -/
def ofBool (value : Bool) : String :=
  if value then "true" else "false"

/-- The words for truth values, in lower case. -/
def truthWords : List (List Char × Bool) :=
  [("true".toList, true), ("1".toList, true), ("yes".toList, true), ("on".toList, true),
    ("false".toList, false), ("0".toList, false), ("no".toList, false), ("off".toList, false)]

/-- The truth value that a text stands for, if any. -/
def readBool? (cs : List Char) : Option Bool :=
  truthWords.lookup ((trim cs).map Char.toLower)

end PredicateExpr.Text
