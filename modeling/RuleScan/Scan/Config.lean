import RuleScan.Files.Path
import RuleScan.Register

/-!
# Configuration of a scan

What a user chooses before a scan starts: how deep extraction may go, where extracted
files are put, whether links are followed, whether internal errors end the scan, and
values that rules find among the globals.

## Main results

* `head?_globalName` — the name of a global starts with `$`.
-/

namespace RuleScan.Scan

/-- The choices of a user. -/
structure Config where
  /-- The depth of the deepest files that are evaluated; inputs are at depth zero. -/
  maxDepth : Nat := 16
  /-- Where actions create files. -/
  output : Option Path := none
  followLinks : Bool := false
  abortOnInternal : Bool := false
  globals : Register := ∅

namespace Config

instance : Inhabited Config := ⟨{}⟩

/-- The name under which rules find a global. -/
def globalName (key : String) : String :=
  if key.toList.head? = some '$' then key else "$" ++ key

/-- Adds a global. -/
def define (c : Config) (key : String) (v : Value) : Config :=
  { c with globals := c.globals.set (globalName key) v }

theorem head?_globalName (key : String) : (globalName key).toList.head? = some '$' := by
  unfold globalName
  split
  · assumption
  · simp [String.toList_append]

end Config

end RuleScan.Scan
