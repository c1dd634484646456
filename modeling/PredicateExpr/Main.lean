import PredicateExpr.CommandLine

/-!
# The program

Runs the command line: the report goes to standard output, a complaint to standard error.
-/

/-- Reports on the expressions among the arguments. -/
def main (arguments : List String) : IO UInt32 := do
  let levelText? ← IO.getEnv PredicateExpr.Settings.logLevelVariable
  let outcome := PredicateExpr.CommandLine.run arguments levelText?
  (← IO.getStdout).putStr outcome.output
  if let some complaint := outcome.complaint? then
    (← IO.getStderr).putStrLn complaint
  return outcome.exitCode.toUInt32
