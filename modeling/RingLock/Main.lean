import RingLock.Report

/-!
# Command line

Prints the verdict, or the survey when asked for it by name.
-/

open RingLock

/-- Prints a report and returns its status. A report that could not be made ends with status 101. -/
def runReport (report? : Option Report) : IO UInt32 := do
  match report? with
  | none => return 101
  | some report =>
    IO.print report.text
    return report.status

def main (args : List String) : IO UInt32 :=
  if args = ["survey"] then runReport (Report.survey? Report.surveyConfig)
  else runReport (Report.verdict? Report.verdictConfig)
