import PredicateExpr.Report
import PredicateExpr.Settings

/-!
# The command line

The arguments are expressions to report on and options, in any order. An argument that starts with a
hyphen is an option, unless it is a hyphen alone or stands behind `--`; the value of an option may
follow in an argument of its own, which must not look like an option, or after an equals sign. The
arguments are read from left to right, and the first fault, or a request for the version, decides.

`CommandLine.run` gives what the program writes to standard output and its exit code.
-/

namespace PredicateExpr.CommandLine

/-! ## Reading the arguments -/

/-- What the arguments ask for. -/
structure Arguments where
  /-- The expressions to report on. -/
  expressions : List String
  /-- The assignments under which they are evaluated. -/
  assignments : List Assignment
  /-- Whether to show the tokens. -/
  tokens : Bool
  /-- The log level that takes precedence over the environment. -/
  logLevel? : Option LogLevel
  deriving DecidableEq, Repr

/-- Nothing asked for. -/
def Arguments.nothing : Arguments :=
  ⟨[], [], false, none⟩

/-- A use of the program. -/
inductive Invocation
  /-- Name the version. -/
  | version
  /-- Report on expressions. -/
  | report (arguments : Arguments)
  deriving DecidableEq, Repr

/-- Why arguments are refused. -/
inductive UsageError
  /-- There is no option of this spelling. -/
  | unknownOption (argument : String)
  /-- An option lacks its value. -/
  | missingValue (option : String)
  /-- An option that can be given once was given again. -/
  | repeated (option : String)
  /-- A value assigns nothing. -/
  | invalidAssignment (text : String)
  /-- A value cannot be used as a setting. -/
  | invalidSetting (cause : Settings.Invalid)
  deriving DecidableEq, Repr

/-- The complaint about arguments. -/
def UsageError.message : UsageError → String
  | .unknownOption argument => s!"unexpected argument '{argument}'"
  | .missingValue option => s!"a value is required for '{option}'"
  | .repeated option => s!"the argument '{option}' cannot be used multiple times"
  | .invalidAssignment text => Assignment.invalidMessage text
  | .invalidSetting cause => cause.message

/-- An option that takes a value. -/
inductive ValueOption
  | set
  | logLevel
  deriving DecidableEq, Repr

/-- The spelling of an option that takes a value. -/
def ValueOption.name : ValueOption → String
  | .set => "--set"
  | .logLevel => "--log-level"

/-- What one argument is. -/
inductive Argument
  /-- An expression. -/
  | expression (text : String)
  /-- An option with its value in the same argument, or in the next one. -/
  | valued (option : ValueOption) (value? : Option String)
  /-- The option that shows the tokens. -/
  | tokens
  /-- A request for the version. -/
  | version
  /-- The end of the options. -/
  | endOfOptions
  /-- An option that does not exist. -/
  | unknown (text : String)
  deriving DecidableEq, Repr

/-- Whether an argument has the form of an option. -/
def looksLikeOption (text : String) : Bool :=
  text != "-" && text.toList.head? == some '-'

/-- What an argument is, where options are allowed. -/
def Argument.ofText (text : String) : Argument :=
  if !looksLikeOption text then
    .expression text
  else if text = "--" then
    .endOfOptions
  else if text = "--tokens" then
    .tokens
  else if text = "--version" ∨ "-V".toList.isPrefixOf text.toList then
    .version
  else
    match [ValueOption.set, .logLevel].findSome? fun option =>
      if text = option.name then
        some (Argument.valued option none)
      else
        ((option.name ++ "=").toList.isPrefixOf? text.toList).map fun value =>
          .valued option (some (String.ofList value)) with
    | some argument => argument
    | none => .unknown text

/-- The arguments with the value of an option added. -/
def Arguments.addValue (arguments : Arguments) (option : ValueOption) (value : String) :
    Except UsageError Arguments :=
  match option with
  | .set =>
    match Assignment.ofText? value with
    | some assignment =>
      .ok { arguments with assignments := arguments.assignments ++ [assignment] }
    | none => .error (.invalidAssignment value)
  | .logLevel =>
    if arguments.logLevel?.isSome then
      .error (.repeated option.name)
    else
      match Settings.readLevel value with
      | .ok level => .ok { arguments with logLevel? := some level }
      | .error cause => .error (.invalidSetting cause)

/-- Reads arguments, given what was read before them. -/
def readFrom (read : Arguments) : List String → Except UsageError Invocation
  | [] => .ok (.report read)
  | text :: texts =>
    match Argument.ofText text with
    | .expression text => readFrom { read with expressions := read.expressions ++ [text] } texts
    | .endOfOptions => .ok (.report { read with expressions := read.expressions ++ texts })
    | .version => .ok .version
    | .unknown text => .error (.unknownOption text)
    | .tokens =>
      if read.tokens then
        .error (.repeated text)
      else
        readFrom { read with tokens := true } texts
    | .valued option (some value) => do
      readFrom (← read.addValue option value) texts
    | .valued option none =>
      match texts with
      | [] => .error (.missingValue option.name)
      | value :: texts =>
        if looksLikeOption value then
          .error (.missingValue option.name)
        else do
          readFrom (← read.addValue option value) texts

/-- The use of the program that a list of arguments asks for. -/
def read (arguments : List String) : Except UsageError Invocation :=
  readFrom .nothing arguments

/-! ## Running the program -/

/-- What a run of the program leaves behind. -/
structure Outcome where
  /-- The exit code. -/
  exitCode : Nat
  /-- What was written to standard output. -/
  output : String
  /-- What is to be said about a refusal. -/
  complaint? : Option String
  deriving DecidableEq, Repr

/-- The outcome of a use that was refused. -/
def Outcome.refused (complaint : String) : Outcome :=
  ⟨2, "", some complaint⟩

/-- The line that names the version. -/
def versionLine : String :=
  "predicate-inlay 0.1.0\n"

/-- The report that arguments ask for. -/
def Arguments.report (arguments : Arguments) : Report :=
  Report.ofTexts (Assignment.valuation arguments.assignments) arguments.tokens
    (if arguments.expressions.isEmpty then demonstration else arguments.expressions)

/-- The outcome of a report. -/
def Outcome.ofReport (report : Report) : Outcome :=
  ⟨if report.failures = 0 then 0 else 1, report.output, none⟩

/-- The outcome of the program under given arguments and a given value of the environment
variable. -/
def run (arguments : List String) (levelText? : Option String) : Outcome :=
  match read arguments with
  | .error error => .refused error.message
  | .ok .version => ⟨0, versionLine, none⟩
  | .ok (.report arguments) =>
    match Settings.ofEnvironment levelText? with
    | .error cause => .refused cause.message
    | .ok _ => .ofReport arguments.report

end PredicateExpr.CommandLine
