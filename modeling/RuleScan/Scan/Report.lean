import RuleScan.Scan.Entry

/-!
# Reports

A report is what a scan leaves behind: the entries in the order in which their files
were reached, and warnings about paths that have no entry. The entries form a forest,
inputs at the top and below each file what its rules created.

## Main results

* `mem_children`, `mem_roots` — membership in the levels of the forest.
* `hasErrors_iff` — a report has errors as soon as one of them is counted.
-/

namespace RuleScan.Scan

/-- The outcome of a scan. -/
structure Report where
  entries : List Entry
  /-- Problems with paths that have no entry. -/
  warnings : List String
  deriving Inhabited

namespace Report

/-- The entry with an id. -/
def entry? (r : Report) (id : FileId) : Option Entry := r.entries[id]?

/-- The entry of a path. -/
def find? (r : Report) (p : Path) : Option Entry := r.entries.find? fun e => e.path.same p

/-- The entries of inputs. -/
def roots (r : Report) : List Entry := r.entries.filter fun e => e.parent.isNone

/-- The entries of the files that were created while a file was evaluated. -/
def children (r : Report) (id : FileId) : List Entry :=
  r.entries.filter fun e => e.parent == some id

/-- Whether an entry has errors. -/
def hasErrors (r : Report) : Bool := r.entries.any Entry.hasErrors

/-- The number of errors of all entries. -/
def errorCount (r : Report) : Nat :=
  r.entries.foldr (fun e n => e.errors.length + n) 0

theorem mem_roots {r : Report} {e : Entry} :
    e ∈ r.roots ↔ e ∈ r.entries ∧ e.parent = none := by
  simp [roots]

theorem mem_children {r : Report} {id : FileId} {e : Entry} :
    e ∈ r.children id ↔ e ∈ r.entries ∧ e.parent = some id := by
  simp [children]

theorem hasErrors_iff (r : Report) : r.hasErrors ↔ 0 < r.errorCount := by
  unfold hasErrors errorCount
  induction r.entries with
  | nil => simp
  | cons e rest ih =>
    simp only [List.any_cons, Bool.or_eq_true, List.foldr_cons, ih]
    have h : e.hasErrors ↔ 0 < e.errors.length := by
      unfold Entry.hasErrors
      cases e.errors <;> simp
    rw [h]
    omega

/-! ## Tags -/

/-- The tags that occur, sorted. -/
def tagNames (r : Report) : List String :=
  (r.entries.flatMap Entry.tags).eraseDups.mergeSort (· ≤ ·)

/-- The files with a tag. -/
def tagged (r : Report) (tag : String) : List FileId :=
  (r.entries.filter fun e => e.tags.contains tag).map Entry.id

/-- The files of each tag, tags sorted. -/
def tagIndex (r : Report) : List (String × List FileId) :=
  r.tagNames.map fun tag => (tag, r.tagged tag)

end Report

end RuleScan.Scan
