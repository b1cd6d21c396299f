import ModelFormula.CommandLine.Report

/-! # The program

Runs the command line and carries out its report.
-/

open ModelFormula

def main (arguments : List String) : IO UInt32 := do
  let report := Report.ofArguments arguments
  IO.eprint report.stderr
  match report.file with
  | none => pure ()
  | some (path, text) => IO.FS.writeFile path text
  IO.print report.stdout
  return report.code.toUInt32
