import RuleScan.CommandLine.Run
import RuleScan.Files.Disk

/-!
# The program

Reads the part of the disk that a command line talks about, runs the command line on
it, writes what was extracted, and prints the answer.
-/

namespace RuleScan.Main

open CommandLine

/-- Takes down what the files and directories of options lead to. -/
def surveyFor (o : Options) : IO Disk.Survey := do
  let s ← Disk.start
  let s ← Disk.survey ⟨false, true⟩ s (o.rules ++ o.output.toList)
  let known ← Disk.survey ⟨true, false⟩ s o.output.toList
  let s := { known with complete := s.complete }
  Disk.survey ⟨true, o.has .followLinks⟩ s o.inputs

/-- The options of a command line that is to be run. -/
def options? (outputDefault : Option Path) (words : List String) : Option Options :=
  match Options.read outputDefault words with
  | .ok (.run o) => some o
  | _ => none

/-- Tells how the scan went, if more messages were asked for. -/
def printSummary (o : Option Options) : Outcome → IO Unit
  | .scanned _ _ n => do
    if (o.map Options.verbosity).getD 0 > 0 then
      IO.eprintln (s!"{n.evaluated} files evaluated, {n.finished} finished, " ++
        s!"{n.matched} leaf matches, {n.failed} with errors")
  | _ => return ()

/-- Runs the words of a command line and returns the exit status. -/
def program (words : List String) : IO UInt32 := do
  let outputDefault ← IO.getEnv outputVariable
  let o := options? outputDefault words
  let files ← match o with
    | some o => do pure (← surveyFor o).files
    | none => pure default
  let (outcome, after) := CommandLine.run outputDefault words files
  Disk.commit files after
  IO.print outcome.text
  match outcome.complaint? with
  | some text => IO.eprint text
  | none => printSummary o outcome
  return outcome.status.toUInt32

end RuleScan.Main

/-- Runs the program. -/
def main (words : List String) : IO UInt32 := RuleScan.Main.program words
