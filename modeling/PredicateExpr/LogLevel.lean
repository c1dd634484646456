/-!
# Log levels

Messages carry a level, and the program is told the lowest level to show. A level is read from its
name in any ASCII letter case; `warn` may be written `warning`.
-/

namespace PredicateExpr

/-- How much a message matters, from the least to the most. -/
inductive LogLevel
  | trace
  | debug
  | info
  | warn
  | error
  deriving DecidableEq, Repr

namespace LogLevel

/-- The name of a level. -/
def name : LogLevel → String
  | .trace => "trace"
  | .debug => "debug"
  | .info => "info"
  | .warn => "warn"
  | .error => "error"

/-- All levels. -/
def all : List LogLevel :=
  [.trace, .debug, .info, .warn, .error]

/-- The level shown when none is asked for, so that warnings and failures are seen. -/
def default : LogLevel :=
  .warn

/-- The names by which a level may be given, in lower case. -/
def names : List (String × LogLevel) :=
  all.map (fun level => (level.name, level)) ++ [("warning", .warn)]

/-- The level that a text names. The letter case of ASCII letters is ignored; no other letter has
one of the letters of these names as its lower case. -/
def ofText? (text : String) : Option LogLevel :=
  names.lookup (String.ofList (text.toList.map Char.toLower))

end LogLevel

end PredicateExpr
