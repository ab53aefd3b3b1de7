import RuleScan.Files.Path
import RuleScan.Match

/-!
# Entries

A scan keeps one entry for each file it reaches: where the file came from, what the
rules said about it and what went wrong. Two files with the same content are
duplicates, and the later one points to the earlier.

## Main results

* `hasErrors_fail` — a failure that is recorded shows.
-/

namespace RuleScan.Scan

/-- The position of a file among the entries of a scan. -/
abbrev FileId := Nat

/-- An error recorded against a file. -/
structure Diagnostic where
  rule : Option String
  message : String
  internal : Bool
  deriving DecidableEq, Inhabited

/-- What an error looks like from outside. -/
def Diagnostic.ofError (rule : Option String) (e : Error) : Diagnostic :=
  ⟨rule, e.message, e.isInternal⟩

/-- The text of a diagnostic. -/
def Diagnostic.print (d : Diagnostic) : String :=
  match d.rule with
  | some rule => s!"[{rule}] " ++ d.message
  | none => d.message

/-- Everything known about one file. -/
structure Entry where
  id : FileId
  path : Path
  size : Nat
  /-- The file whose rules created this one; none for inputs. -/
  parent : Option FileId
  /-- How many extractions led to the file. -/
  depth : Nat
  /-- The content, for files that were read. -/
  content : Option Bytes
  /-- An earlier file with the same content. -/
  duplicateOf : Option FileId
  /-- The matches of root rules, in the order of evaluation. -/
  trees : List Match
  tags : List String
  errors : List Diagnostic
  warnings : List String
  logs : List String
  /-- Whether rules were evaluated against the file. -/
  processed : Bool
  deriving Inhabited

namespace Entry

/-- An entry about which only its origin is known. -/
def new (id : FileId) (path : Path) (parent : Option FileId) (depth : Nat) : Entry :=
  ⟨id, path, 0, parent, depth, none, none, [], [], [], [], [], false⟩

/-- Records an error. -/
def fail (e : Entry) (rule : Option String) (cause : Error) : Entry :=
  { e with errors := e.errors ++ [Diagnostic.ofError rule cause] }

/-- Whether an error was recorded. -/
def hasErrors (e : Entry) : Bool := !e.errors.isEmpty

/-- Every match of every tree. -/
def allMatches (e : Entry) : List Match := e.trees.flatMap Match.preorder

/-- The matches below which nothing matched. -/
def leaves (e : Entry) : List Match := e.trees.flatMap Match.leaves

/-- Whether a rule matched anywhere. -/
def matched (e : Entry) (id : String) : Bool := e.trees.any fun m => (m.find? id).isSome

theorem hasErrors_fail (e : Entry) (rule : Option String) (cause : Error) :
    (e.fail rule cause).hasErrors := by
  simp [fail, hasErrors]

end Entry

end RuleScan.Scan
