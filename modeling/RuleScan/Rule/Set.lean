import RuleScan.Rule.Basic

/-!
# Rule sets

A rule set collects open rules from any number of sources, each id once. Linking
turns the collection into a forest: parents are looked up by name, so a rule may
stand before its parent, and then every rule is closed, parents before children. A
rule that no root leads to lies below a cycle of parents.

Linking changes the set step by step, and a step that fails leaves the earlier ones
in place.

## Main results

* `insert_duplicate` — an id that is taken is refused.
* `size_insert` — a rule that is accepted comes last.
* `attach_size`, `closeAll_size` — linking never adds or drops a rule.
-/

namespace RuleScan

/-- Rules in the order of their declaration, by id, and by source. -/
structure RuleSet where
  rules : Array Rule
  index : Table String RuleId
  roots : List RuleId
  sources : Table String (List RuleId)
  deriving Inhabited

namespace RuleSet

/-- The set without rules. -/
def empty : RuleSet := ⟨#[], ∅, [], ∅⟩

instance : EmptyCollection RuleSet := ⟨empty⟩

/-- The number of rules. -/
def size (s : RuleSet) : Nat := s.rules.size

/-- The position of the rule with an id. -/
def lookup (s : RuleSet) (id : String) : Option RuleId := s.index.get? id

/-- The rule with an id. -/
def get? (s : RuleSet) (id : String) : Option Rule := (s.lookup id).bind (s.rules[·]?)

/-- The id of the rule at a position. -/
def idAt? (s : RuleSet) (i : RuleId) : Option String := s.rules[i]?.map Rule.id

/-- Adds a rule whose id is not taken. -/
def insert (s : RuleSet) (r : Rule) : Except Error (RuleSet × RuleId) :=
  match s.lookup r.id with
  | some i =>
    .error (.duplicateRule r.id ((s.rules[i]?.map Rule.source).getD "") r.source)
  | none =>
    let i := s.rules.size
    .ok ({ s with
      rules := s.rules.push r
      index := s.index.insert r.id i
      sources := s.sources.insert r.source ((s.sources.get? r.source).getD [] ++ [i]) }, i)

/-- Overwrites the rule at a position. -/
def setRule (s : RuleSet) (i : RuleId) (r : Rule) : RuleSet :=
  { s with rules := s.rules.setIfInBounds i r }

/-- Changes the rule at a position. -/
def modifyRule (s : RuleSet) (i : RuleId) (f : Rule → Rule) : RuleSet :=
  { s with rules := s.rules.modify i f }

theorem insert_duplicate {s : RuleSet} {r : Rule} {i : RuleId} (h : s.lookup r.id = some i) :
    s.insert r =
      .error (.duplicateRule r.id ((s.rules[i]?.map Rule.source).getD "") r.source) := by
  simp [insert, h]

theorem size_insert {s t : RuleSet} {r : Rule} {i : RuleId} (h : s.insert r = .ok (t, i)) :
    i = s.size ∧ t.size = s.size + 1 := by
  unfold insert at h
  split at h
  · cases h
  · simp only [Except.ok.injEq, Prod.mk.injEq] at h
    obtain ⟨rfl, rfl⟩ := h
    exact ⟨rfl, by simp [size]⟩

/-! ## Linking -/

/-- Ties a rule to its parent, or makes it a root. -/
def attach (s : RuleSet) (i : RuleId) : Except Error RuleSet :=
  match s.rules[i]? with
  | none => .ok s
  | some r =>
    match r.parentName with
    | none => .ok { s with roots := s.roots ++ [i] }
    | some name =>
      match s.lookup name with
      | none => .error (.unknownParent r.id name)
      | some p =>
        .ok ((s.modifyRule i fun r => { r with parent := some p }).modifyRule p fun r =>
          { r with children := r.children ++ [i] })

/-- Ties rules to their parents up to the first whose parent does not exist. -/
def attachAll : List RuleId → RuleSet → Except Error Unit × RuleSet
  | [], s => (.ok (), s)
  | i :: rest, s =>
    match s.attach i with
    | .error e => (.error e, s)
    | .ok s => attachAll rest s

/-- The metadata that a rule inherits. -/
def parentMetadata (s : RuleSet) (r : Rule) : Option Register :=
  (r.parent.bind (s.rules[·]?)).map Rule.metadata

/--
Closes the queued rules in turn, queueing the children of each, and counts them. The
budget bounds the number of rules taken from the queue; since no rule can be closed
twice, one more than there are rules always suffices.
-/
def closeAll : Nat → List RuleId → Nat → RuleSet → Except Error Nat × RuleSet
  | 0, _, count, s => (.ok count, s)
  | _ + 1, [], count, s => (.ok count, s)
  | budget + 1, i :: queue, count, s =>
    match s.rules[i]? with
    | none => closeAll budget queue count s
    | some r =>
      match r.close (s.parentMetadata r) with
      | (.error e, r) => (.error e, s.setRule i r)
      | (.ok (), r) => closeAll budget (queue ++ r.children) (count + 1) (s.setRule i r)

/-- Follows parents until a rule comes up again, and returns that rule. -/
def cycleMember (s : RuleSet) : Nat → List RuleId → RuleId → RuleId
  | 0, _, i => i
  | budget + 1, seen, i =>
    if i ∈ seen then i
    else
      match s.rules[i]?.bind Rule.parent with
      | some p => cycleMember s budget (i :: seen) p
      | none => i

/-- The error for a set in which some rule cannot be reached from a root. -/
def cycleError (s : RuleSet) : Error :=
  let start := (s.rules.findIdx? fun r => !r.closed).getD 0
  .inheritanceCycle ((s.idAt? (s.cycleMember (s.size + 1) [] start)).getD "")

/-- Ties every rule to its parent and closes every rule. -/
def link (s : RuleSet) : Except Error Unit × RuleSet :=
  match attachAll (List.range s.size) s with
  | (.error e, s) => (.error e, s)
  | (.ok (), s) =>
    match closeAll (s.size + 1) s.roots 0 s with
    | (.error e, s) => (.error e, s)
    | (.ok count, s) => if count < s.size then (.error s.cycleError, s) else (.ok (), s)

theorem attach_size {s t : RuleSet} {i : RuleId} (h : s.attach i = .ok t) : t.size = s.size := by
  unfold attach at h
  split at h
  · simp_all
  · split at h
    · simp only [Except.ok.injEq] at h
      rw [← h]
      rfl
    · split at h
      · cases h
      · simp only [Except.ok.injEq] at h
        rw [← h]
        simp [modifyRule, size]

theorem closeAll_size (budget : Nat) (queue : List RuleId) (count : Nat) (s : RuleSet) :
    (closeAll budget queue count s).2.size = s.size := by
  induction budget generalizing queue count s with
  | zero => rfl
  | succ budget ih =>
    cases queue with
    | nil => rfl
    | cons i queue =>
      simp only [closeAll]
      split
      · exact ih queue count s
      · split
        · simp [setRule, size]
        · rw [ih]
          simp [setRule, size]

/-! ## Passes -/

/-- Files a rule under its pass, keeping passes in ascending order. -/
def insertPass (pass : Int) (i : RuleId) : List (Int × List RuleId) → List (Int × List RuleId)
  | [] => [(pass, [i])]
  | (p, ids) :: rest =>
    if pass < p then (pass, [i]) :: (p, ids) :: rest
    else if pass = p then (p, ids ++ [i]) :: rest
    else (p, ids) :: insertPass pass i rest

/-- The roots by pass, passes ascending, declaration order within a pass. -/
def passes (s : RuleSet) : List (Int × List RuleId) :=
  s.roots.foldl (fun ps i => insertPass ((s.rules[i]?.map Rule.pass).getD 0) i ps) []

/-- The roots in the order in which they run. -/
def schedule (s : RuleSet) : List RuleId := s.passes.flatMap Prod.snd

end RuleSet

end RuleScan
