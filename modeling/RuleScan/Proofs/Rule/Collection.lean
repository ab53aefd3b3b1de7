import RuleScan.Proofs.Expr.Simplified
import RuleScan.Proofs.Reading.Yields
import RuleScan.Rule.Load

/-!
# Collections of rules

Before it is linked, a set collects the rules of its sources.  `RuleSet.collect` reads several
sources one after the other; what `RuleSet.parse` links is such a collection.
In a collection every rule is as it was read, ids are taken once, and the three ways to find a
rule, by position, by id and by source, lead to the same rules.

## Main results

* `linked_collect_of_parse` — an accepted set is a linked collection.
* `isIndexed_insert` — storing a rule keeps the three ways to find one in agreement.
* `isCollection_collect` — what holds of the collection of any sources.
-/

namespace RuleScan

theorem ok_of_toOption {ε α : Type} {x : Except ε α} {a : α} (h : x.toOption = some a) :
    x = .ok a := by
  cases x <;> cases h
  rfl

namespace RuleSet

variable {signatures : String → Option Signature} {P Q : Expr → Prop}

/-- Reads several named sources into a set, each up to its first fault. -/
def readSources (signatures : String → Option Signature) :
    List (String × String) → RuleSet → RuleSet
  | [], s => s
  | (name, text) :: rest, s => readSources signatures rest (s.readSource signatures name text).2

/-- The rules of several sources. -/
def collect (signatures : String → Option Signature) (sources : List (String × String)) :
    RuleSet :=
  readSources signatures sources ∅

/-! ## Accepted sets -/

theorem linked_collect_of_parse {source text : String} {t : RuleSet}
    (h : parse signatures source text = .ok t) :
    (collect signatures [(source, text)]).linked = .ok t := by
  unfold parse at h
  show ((∅ : RuleSet).readSource signatures source text).2.linked = .ok t
  split at h
  · cases h
  · next hs =>
    rw [hs]
    exact h

/-! ## Finding rules -/

/-- The positions of the rules that a source declares, in order. -/
def declaredIn (s : RuleSet) (source : String) : List RuleId :=
  (List.range s.size).filter fun i => s.rules[i]?.map Rule.source = some source

/-- The ids, the positions and the lists by source lead to the same rules. -/
structure IsIndexed (s : RuleSet) : Prop where
  lookup : ∀ id i, s.lookup id = some i ↔ s.idAt? i = some id
  sources : ∀ source, (s.sources.get? source).getD [] = s.declaredIn source
  declares : ∀ source is, s.sources.get? source = some is → is ≠ []

theorem isIndexed_empty : (∅ : RuleSet).IsIndexed where
  lookup _ _ := by simp [RuleSet.lookup, idAt?, EmptyCollection.emptyCollection, empty, Table.get?,
    Table.empty, Table.findList]
  sources _ := rfl
  declares _ _ h := nomatch h

/-- Opens the storing of a rule. -/
theorem of_insert {s t : RuleSet} {r : Rule} {i : RuleId} (h : s.insert r = .ok (t, i)) :
    s.lookup r.id = none ∧ t = { s with
      rules := s.rules.push r
      index := s.index.insert r.id s.size
      sources := s.sources.insert r.source
        ((s.sources.get? r.source).getD [] ++ [s.size]) } := by
  unfold insert at h
  split at h
  · cases h
  · next hfree =>
    cases h
    exact ⟨hfree, rfl⟩

theorem declaredIn_push (s t : RuleSet) (r : Rule) (ht : t.rules = s.rules.push r)
    (source : String) :
    t.declaredIn source =
      if source = r.source then s.declaredIn source ++ [s.size] else s.declaredIn source := by
  have hold : (List.range s.size).filter (fun i => t.rules[i]?.map Rule.source = some source) =
      s.declaredIn source := by
    refine List.filter_congr fun i hi => ?_
    have hne : i ≠ s.rules.size := Nat.ne_of_lt (List.mem_range.1 hi)
    rw [ht, Array.getElem?_push, if_neg hne]
  have hnew : t.rules[s.size]? = some r := by
    rw [ht, Array.getElem?_push, if_pos (show s.size = s.rules.size from rfl)]
  have hsize : t.size = s.size + 1 := by
    unfold size
    rw [ht, Array.size_push]
  unfold declaredIn at hold ⊢
  rw [hsize, List.range_succ, List.filter_append, hold]
  by_cases h : source = r.source
  · simp [hnew, h]
  · simp [hnew, h, Ne.symm h]

theorem isIndexed_insert {s t : RuleSet} {r : Rule} {i : RuleId} (hs : s.IsIndexed)
    (h : s.insert r = .ok (t, i)) : t.IsIndexed := by
  obtain ⟨hfree, rfl⟩ := of_insert h
  refine ⟨fun id j => ?_, fun source => ?_, fun source is his => ?_⟩
  · have hlookup : ∀ id, (s.index.insert r.id s.size).get? id =
        if id = r.id then some s.size else s.lookup id := Table.get?_insert _ _ _
    have hat : ((s.rules.push r)[j]?).map Rule.id =
        if j = s.rules.size then some r.id else s.idAt? j := by
      rw [Array.getElem?_push]
      split <;> rfl
    show (s.index.insert r.id s.size).get? id = some j ↔ ((s.rules.push r)[j]?).map Rule.id = _
    rw [hlookup, hat]
    by_cases hj : j = s.rules.size
    · by_cases hid : id = r.id
      · simp [hj, hid, size]
      · have hnone : s.idAt? j = none := by simp [idAt?, hj]
        have hne : s.lookup id ≠ some j := fun hl => by
          rw [(hs.lookup id j).1 hl] at hnone
          cases hnone
        simp [hj, hid, Ne.symm hid, hj ▸ hne]
    · by_cases hid : id = r.id
      · have hne : s.idAt? j ≠ some r.id := fun hl => by
          rw [(hs.lookup r.id j).2 hl] at hfree
          cases hfree
        simp [hj, hid, size, Ne.symm hj, hne]
      · simp [hj, hid, hs.lookup id j]
  · rw [declaredIn_push s _ r rfl, ← hs.sources, Table.get?_insert]
    by_cases h : source = r.source <;> simp [h]
  · rw [Table.get?_insert] at his
    by_cases h : source = r.source
    · simp only [h, if_true, Option.some.injEq] at his
      simp [← his]
    · simp only [h, if_false] at his
      exact hs.declares source is his

/-! ## What holds of collections -/

/-- A set whose rules are as they were read, and have yet to be linked. -/
structure IsCollection (P : Expr → Prop) (s : RuleSet) : Prop where
  raw : ∀ {i : RuleId} {r : Rule}, s.rules[i]? = some r → r.IsRaw P
  roots : s.roots = []
  indexed : s.IsIndexed

theorem isCollection_empty : (∅ : RuleSet).IsCollection P :=
  ⟨fun h => by simp [EmptyCollection.emptyCollection, empty] at h, rfl, isIndexed_empty⟩

theorem isCollection_insert {s t : RuleSet} {r : Rule} {i : RuleId} (hs : s.IsCollection P)
    (hr : r.IsRaw P) (h : s.insert r = .ok (t, i)) : t.IsCollection P := by
  refine ⟨fun {j q} hq => ?_, ?_, isIndexed_insert hs.indexed h⟩
  · obtain ⟨-, rfl⟩ := of_insert h
    rw [Array.getElem?_push] at hq
    split at hq
    · cases hq
      exact hr
    · exact hs.raw hq
  · obtain ⟨-, rfl⟩ := of_insert h
    exact hs.roots

section Reading

variable (hP : ∀ source, RuleParser.Establishes ⟨source, signatures⟩ Q P)

include hP

theorem isCollection_readRules (source : String) (budget : Nat) (c : Cursor) {s : RuleSet}
    (hs : s.IsCollection P) : (readRules ⟨source, signatures⟩ budget c s).2.IsCollection P := by
  induction budget generalizing c s with
  | zero => exact hs
  | succ budget ih =>
      unfold readRules
      split
      · exact hs
      · split
        · exact hs
        · next r c' hr =>
          split
          · exact hs
          · next t i ht =>
            exact ih c' (isCollection_insert hs ((hP source).rule c r c' hr) ht)

theorem isCollection_readSource (source text : String) {s : RuleSet} (hs : s.IsCollection P) :
    (s.readSource signatures source text).2.IsCollection P := by
  unfold readSource
  split
  · exact hs
  · exact isCollection_readRules hP source _ _ hs

/-- Whatever the sources, and whether or not they could be read to their ends. -/
theorem isCollection_collect (sources : List (String × String)) :
    (collect signatures sources).IsCollection P := by
  suffices h : ∀ s : RuleSet, s.IsCollection P →
      (readSources signatures sources s).IsCollection P from h ∅ isCollection_empty
  induction sources with
  | nil => exact fun s hs => hs
  | cons source rest ih => exact fun s hs => ih _ (isCollection_readSource hP _ _ hs)

end Reading

/-- Every expression of a collection is simplified. -/
theorem isCollection_isFolded (signatures : String → Option Signature)
    (sources : List (String × String)) :
    (collect signatures sources).IsCollection Expr.IsFolded :=
  isCollection_collect (Q := fun _ => True)
    (fun _ => ⟨yields_any _, fun _ h => Expr.isFolded_of_simplify h⟩) sources

end RuleSet

end RuleScan
