import ModelFormula.CommandLine.Invocation

/-! # Reports

All that a run of the command line leaves behind. A refused invocation has the exit code 2, a
command that fails has 1. A text ends with exactly one line break.
-/

namespace ModelFormula

/-- The exit code, the two output texts, and a file to write with its path. -/
structure Report where
  code : Nat := 0
  stdout : String := ""
  stderr : String := ""
  file : Option (String × String) := none
  deriving DecidableEq, Repr

namespace Report

/-- The text with exactly one line break at its end. -/
def ended (text : String) : String :=
  String.ofList ((text.toList.reverse.dropWhile (· == '\n')).reverse ++ ['\n'])

def warning (unused : List String) : String :=
  if unused = [] then ""
  else "Warning: columns not used by the formula: " ++ String.intercalate ", " unused ++ "\n"

def ofFinding (output : Option String) (finding : Finding) : Report :=
  match output with
  | some path => { stderr := warning finding.unused, file := some (path, ended finding.text) }
  | none => { stdout := ended finding.text, stderr := warning finding.unused }

def ofUsageError (e : UsageError) : Report where
  code := 2
  stderr := "error: " ++ e.message ++ "\n\nFor more information, try '--help'.\n"

def ofCommandError (e : CommandError) : Report where
  code := 1
  stderr := "Error: " ++ e.message ++ "\n"

def ofArguments (arguments : List String) : Report :=
  match Invocation.ofArguments arguments with
  | .error e => ofUsageError e
  | .ok invocation =>
    match invocation.command.run invocation.fields invocation.formula with
    | .error e => ofCommandError e
    | .ok finding => ofFinding invocation.output finding

end Report

end ModelFormula
