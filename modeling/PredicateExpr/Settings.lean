import PredicateExpr.LogLevel

/-!
# Settings

The log level is taken from an environment variable, if it is set, and an option of the command line
takes precedence. A variable that names no level is refused even if the option would replace it.
-/

namespace PredicateExpr

/-- The settings of the program. -/
structure Settings where
  /-- The lowest level of messages to show. -/
  logLevel : LogLevel
  deriving DecidableEq, Repr

namespace Settings

/-- The environment variable that holds the log level. -/
def logLevelVariable : String :=
  "PREDICATE_INLAY_LOG_LEVEL"

/-- The settings where no variable is set. -/
def default : Settings :=
  ⟨.default⟩

/-- A value of a setting that cannot be used. -/
inductive Invalid
  /-- A text that names no log level. -/
  | logLevel (text : String)
  deriving DecidableEq, Repr

/-- The complaint about a value. -/
def Invalid.message : Invalid → String
  | .logLevel text =>
    s!"invalid configuration: unknown log level '{text}', expected one of: "
      ++ ", ".intercalate (LogLevel.all.map LogLevel.name)

/-- The level that a text names. -/
def readLevel (text : String) : Except Invalid LogLevel :=
  match LogLevel.ofText? text with
  | some level => .ok level
  | none => .error (.logLevel text)

/-- The settings that the value of the environment variable leads to. -/
def ofEnvironment (levelText? : Option String) : Except Invalid Settings :=
  match levelText? with
  | none => .ok default
  | some text => (readLevel text).map Settings.mk

/-- The settings with a level in place of theirs, if one is given. -/
def override (settings : Settings) (level? : Option LogLevel) : Settings :=
  ⟨level?.getD settings.logLevel⟩

end Settings

end PredicateExpr
