import RuleScan.Scan.Entry

/-!
# Events

A scan tells what it does while it runs: a file is about to be evaluated, a rule
matched it, it got a tag, it is done with. Statistics are sums over events.

## Main results

* `statistics_append` — statistics of consecutive stretches of a scan add up.
-/

namespace RuleScan.Scan

/-- Something that happens during a scan, with the entry as it is then. -/
inductive Event where
  /-- Rules are about to be evaluated against a file. -/
  | started (entry : Entry)
  /-- A rule matched below which nothing matched. -/
  | matched (entry : Entry) (leaf : Match)
  /-- A rule that matched carries a tag. -/
  | tagged (entry : Entry) (tag : String)
  /-- The entry of a file is final. -/
  | finished (entry : Entry)

/-- How often what happened. -/
structure Statistics where
  evaluated : Nat
  finished : Nat
  matched : Nat
  tagged : Nat
  failed : Nat
  deriving DecidableEq, Repr, Inhabited

namespace Statistics

/-- The sums of two statistics. -/
def add (s t : Statistics) : Statistics :=
  ⟨s.evaluated + t.evaluated, s.finished + t.finished, s.matched + t.matched,
    s.tagged + t.tagged, s.failed + t.failed⟩

/-- The statistics of a scan in which nothing happens. -/
def zero : Statistics := ⟨0, 0, 0, 0, 0⟩

theorem zero_add (s : Statistics) : zero.add s = s := by simp [add, zero]

theorem add_assoc (s t u : Statistics) : (s.add t).add u = s.add (t.add u) := by
  simp [add, Nat.add_assoc]

end Statistics

/-- The statistics of a single event. -/
def Event.statistics : Event → Statistics
  | .started _ => { Statistics.zero with evaluated := 1 }
  | .matched _ _ => { Statistics.zero with matched := 1 }
  | .tagged _ _ => { Statistics.zero with tagged := 1 }
  | .finished e => { Statistics.zero with finished := 1, failed := if e.hasErrors then 1 else 0 }

/-- The statistics of a list of events. -/
def statistics (events : List Event) : Statistics :=
  (events.map Event.statistics).foldr Statistics.add Statistics.zero

theorem statistics_append (xs ys : List Event) :
    statistics (xs ++ ys) = (statistics xs).add (statistics ys) := by
  induction xs with
  | nil => exact (Statistics.zero_add _).symm
  | cons x xs ih =>
    simp only [statistics, List.cons_append, List.map_cons, List.foldr_cons] at ih ⊢
    rw [ih, Statistics.add_assoc]

end RuleScan.Scan
