import RuleScan.Error
import RuleScan.Text.Blank

/-!
# Problems

What keeps a program from doing its work is told as a sentence about the work and,
below it, the chain of what caused it. A single cause is indented; several are
numbered from zero. The lines of a cause stay below its first line.

## Main results

* `print_of_causes_nil` — a problem without a cause is a single line.
-/

namespace RuleScan.CommandLine

/-- What went wrong, and why. -/
structure Problem where
  summary : String
  causes : List String
  deriving DecidableEq, Repr, Inhabited

namespace Problem

/-- A problem that an error leads to. -/
def ofError (summary : String) (e : Error) : Problem := ⟨summary, e.message :: e.cause?.toList⟩

/-- A cause behind some text, its other lines behind another. -/
def printCause (first others : String) (cause : String) : String :=
  let lines := (Text.splitOn '\n' cause.toList).map String.ofList
  "\n" ++ first ++ String.intercalate ("\n" ++ others) lines

/-- The text in front of a numbered cause, right-aligned. -/
def numberLabel (n : Nat) : String :=
  let digits := toString n
  String.ofList (List.replicate (5 - digits.length) ' ') ++ digits ++ ": "

/-- Causes with their numbers. -/
def printNumbered : Nat → List String → String
  | _, [] => ""
  | n, cause :: rest =>
    printCause (numberLabel n) "       " cause ++ printNumbered (n + 1) rest

/-- The chain of causes. -/
def printCauses : List String → String
  | [] => ""
  | [cause] => "\n\nCaused by:" ++ printCause "    " "    " cause
  | causes => "\n\nCaused by:" ++ printNumbered 0 causes

/-- The text of a problem. -/
def print (p : Problem) : String := "Error: " ++ p.summary ++ printCauses p.causes ++ "\n"

theorem print_of_causes_nil (summary : String) :
    print ⟨summary, []⟩ = "Error: " ++ summary ++ "\n" := by
  simp [print, printCauses]

end Problem

end RuleScan.CommandLine
