import RuleScan.Proofs.Rule.Collection

/-!
# Tying rules to their parents

Linking ties the rules of a collection to their parents in the order of their declaration.
`RuleSet.tied` says in one formula what the set looks like after so many of them: the rules so
far know the positions of their parents, every rule knows those of the rules so far that name
it, in order, and those of the rules so far that name no parent are the roots.

Tying stops at the first orphan, a rule that names a parent that is not there.

## Main results

* `attach_root`, `attach_child`, `attach_orphan` — one step of tying.
* `attachAll_collection` — all steps.
* `isTied_tied` — the links of a set whose rules are all tied.
-/

namespace RuleScan.RuleSet

variable {s : RuleSet} {P : Expr → Prop}

/-- The position of the rule that the rule at a position names as its parent. -/
def parentOf? (s : RuleSet) (i : RuleId) : Option RuleId :=
  (s.rules[i]?.bind Rule.parentName).bind s.lookup

/-- The rule at a position names a parent, and there is no such rule. -/
def IsOrphan (s : RuleSet) (i : RuleId) : Prop :=
  ∃ (r : Rule) (name : String),
    s.rules[i]? = some r ∧ r.parentName = some name ∧ ∀ j, s.idAt? j ≠ some name

theorem IsIndexed.lookup_eq_none_iff (hs : s.IsIndexed) {name : String} :
    s.lookup name = none ↔ ∀ j, s.idAt? j ≠ some name := by
  constructor
  · intro h j hj
    rw [(hs.lookup name j).2 hj] at h
    cases h
  · intro h
    cases hl : s.lookup name with
    | none => rfl
    | some j => exact absurd ((hs.lookup name j).1 hl) (h j)

/-- The set after its first rules were tied to their parents. -/
def tied (s : RuleSet) (count : Nat) : RuleSet :=
  { s with
    rules := s.rules.mapIdx fun i r =>
      { r with
        parent := if i < count then s.parentOf? i else none
        children := (List.range count).filter fun j => s.parentOf? j = some i }
    roots := (List.range count).filter fun j => s.rules[j]?.bind Rule.parentName = none }

theorem getElem?_tied (s : RuleSet) (count : Nat) (i : RuleId) :
    (s.tied count).rules[i]? = s.rules[i]?.map fun r =>
      { r with
        parent := if i < count then s.parentOf? i else none
        children := (List.range count).filter fun j => s.parentOf? j = some i } :=
  Array.getElem?_mapIdx

/-- Before the first step nothing is tied. -/
theorem tied_zero (hs : s.IsCollection P) : s.tied 0 = s := by
  have hrules : (s.tied 0).rules = s.rules := by
    refine Array.ext_getElem? fun i => ?_
    rw [getElem?_tied]
    cases hr : s.rules[i]? with
    | none => rfl
    | some r =>
        obtain ⟨-, hparent, hchildren, -, -⟩ := hs.raw hr
        cases r
        simp_all
  obtain ⟨rules, index, roots, sources⟩ := s
  have hroots : roots = [] := hs.roots
  subst hroots
  simpa [tied] using hrules

/-! ## One step -/

section Step

variable {k : Nat} {r : Rule}

theorem filter_range_succ {p : Nat → Prop} [DecidablePred p] (k : Nat) :
    (List.range (k + 1)).filter (fun j => p j) =
      (List.range k).filter (fun j => p j) ++ if p k then [k] else [] := by
  rw [List.range_succ, List.filter_append]
  by_cases h : p k <;> simp [h]

/-- A rule without a parent becomes a root. -/
theorem attach_root (hr : s.rules[k]? = some r) (hname : r.parentName = none) :
    (s.tied k).attach k = .ok (s.tied (k + 1)) := by
  have hparent : s.parentOf? k = none := by simp [parentOf?, hr, hname]
  unfold attach
  rw [getElem?_tied, hr]
  simp only [Option.map_some, hname, Except.ok.injEq]
  unfold tied
  simp only [RuleSet.mk.injEq, true_and, and_true]
  refine ⟨Array.ext_getElem? fun i => ?_, ?_⟩
  · rw [Array.getElem?_mapIdx, Array.getElem?_mapIdx]
    refine congrArg (s.rules[i]?.map ·) (funext fun q => ?_)
    have hif : (if i < k then s.parentOf? i else none) =
        if i < k + 1 then s.parentOf? i else none := by
      by_cases hi : i = k
      · simp [hi, hparent]
      · simp only [show i < k + 1 ↔ i < k by omega]
    rw [filter_range_succ k, hif]
    simp [hparent]
  · rw [filter_range_succ k]
    simp [hr, hname]

/-- A rule whose parent is there is tied to it. -/
theorem attach_child (hr : s.rules[k]? = some r) {name : String}
    (hname : r.parentName = some name) {p : RuleId} (hp : s.lookup name = some p) :
    (s.tied k).attach k = .ok (s.tied (k + 1)) := by
  have hparent : s.parentOf? k = some p := by simp [parentOf?, hr, hname, hp]
  have hlookup : (s.tied k).lookup name = some p := hp
  unfold attach
  rw [getElem?_tied, hr]
  simp only [Option.map_some, hname, hlookup, Except.ok.injEq]
  unfold modifyRule tied
  simp only [RuleSet.mk.injEq, true_and, and_true]
  refine ⟨Array.ext_getElem? fun i => ?_, ?_⟩
  · simp only [Array.getElem?_modify, Array.getElem?_mapIdx]
    cases hq : s.rules[i]? with
    | none => simp
    | some q =>
        simp only [filter_range_succ k, hparent, Option.some.injEq, Option.map_some]
        have hif : (if i < k + 1 then s.parentOf? i else none) =
            if k = i then some p else if i < k then s.parentOf? i else none := by
          by_cases hi : k = i
          · simp [← hi, hparent]
          · simp only [show i < k + 1 ↔ i < k by omega, hi, if_false]
        rw [hif]
        by_cases hi : k = i <;> by_cases hpi : p = i <;> simp [hi, hpi]
  · rw [filter_range_succ k]
    simp [hr, hname]

/-- A rule whose parent is not there cannot be tied. -/
theorem attach_orphan (hr : s.rules[k]? = some r) {name : String}
    (hname : r.parentName = some name) (hp : s.lookup name = none) :
    (s.tied k).attach k = .error (.unknownParent r.id name) := by
  have hlookup : (s.tied k).lookup name = none := hp
  unfold attach
  rw [getElem?_tied, hr]
  simp [hname, hlookup]

end Step

/-! ## All steps -/

/-- The rules from some position on are tied unless one of them is an orphan; the induction is
on their number. -/
theorem attachAll_range' (hs : s.IsIndexed) (k m : Nat) (hk : k + m ≤ s.size) :
    (attachAll (List.range' k m) (s.tied k) = (.ok (), s.tied (k + m)) ∧
      ∀ i, k ≤ i → i < k + m → ¬ s.IsOrphan i) ∨
    ∃ (i : RuleId) (r : Rule) (name : String), (attachAll (List.range' k m) (s.tied k)).1 =
        .error (.unknownParent r.id name) ∧
      s.rules[i]? = some r ∧ r.parentName = some name ∧ ∀ j, s.idAt? j ≠ some name := by
  induction m generalizing k with
  | zero => exact Or.inl ⟨rfl, fun i h h' => absurd h (by omega)⟩
  | succ m ih =>
      have hlt : k < s.rules.size := Nat.lt_of_lt_of_le (by omega) hk
      have hr : s.rules[k]? = some s.rules[k] := Array.getElem?_eq_getElem hlt
      have hnext : (s.tied k).attach k = .ok (s.tied (k + 1)) → ¬ s.IsOrphan k →
          (attachAll (List.range' k (m + 1)) (s.tied k) = (.ok (), s.tied (k + (m + 1))) ∧
            ∀ i, k ≤ i → i < k + (m + 1) → ¬ s.IsOrphan i) ∨
          ∃ (i : RuleId) (r : Rule) (name : String),
            (attachAll (List.range' k (m + 1)) (s.tied k)).1 =
              .error (.unknownParent r.id name) ∧
            s.rules[i]? = some r ∧ r.parentName = some name ∧
              ∀ j, s.idAt? j ≠ some name := by
        intro hattach hno
        rw [List.range'_succ, attachAll, hattach]
        rw [show k + (m + 1) = k + 1 + m by omega] at hk ⊢
        refine (ih (k + 1) hk).imp_left fun ⟨hall, hrest⟩ => ⟨hall, fun i hi hi' => ?_⟩
        obtain rfl | hne := Nat.eq_or_lt_of_le hi
        · exact hno
        · exact hrest i hne hi'
      cases hname : s.rules[k].parentName with
      | none =>
          refine hnext (attach_root hr hname) ?_
          rintro ⟨r', name, hr', hname', -⟩
          rw [hr, Option.some.injEq] at hr'
          rw [← hr', hname] at hname'
          cases hname'
      | some name =>
          cases hp : s.lookup name with
          | some p =>
              refine hnext (attach_child hr hname hp) ?_
              rintro ⟨r', name', hr', hname', hnot⟩
              rw [hr, Option.some.injEq] at hr'
              rw [← hr', hname, Option.some.injEq] at hname'
              exact hnot p ((hs.lookup name' p).1 (hname' ▸ hp))
          | none =>
              refine Or.inr ⟨k, s.rules[k], name, ?_, hr, hname, hs.lookup_eq_none_iff.1 hp⟩
              rw [List.range'_succ, attachAll, attach_orphan hr hname hp]

/-- A collection in which no rule is an orphan is tied; otherwise an orphan is reported. -/
theorem attachAll_collection (hs : s.IsCollection P) :
    (attachAll (List.range s.size) s = (.ok (), s.tied s.size) ∧ ∀ i, ¬ s.IsOrphan i) ∨
    ∃ (i : RuleId) (r : Rule) (name : String),
      (attachAll (List.range s.size) s).1 = .error (.unknownParent r.id name) ∧
      s.rules[i]? = some r ∧ r.parentName = some name ∧ ∀ j, s.idAt? j ≠ some name := by
  have h := attachAll_range' hs.indexed 0 s.size (by omega)
  rw [tied_zero hs, ← List.range_eq_range', Nat.zero_add] at h
  refine h.imp_left fun ⟨hall, hno⟩ => ⟨hall, fun i hi => ?_⟩
  obtain ⟨r, name, hr, hname, hnot⟩ := hi
  have hlt : i < s.size := (Array.getElem?_eq_some_iff.1 hr).1
  exact hno i (Nat.zero_le i) hlt ⟨r, name, hr, hname, hnot⟩

/-! ## The links of a tied set -/

/-- A rule has another as its parent. -/
def IsParent (s : RuleSet) (p i : RuleId) : Prop :=
  ∃ r, s.rules[i]? = some r ∧ r.parent = some p

theorem IsParent.unique {p q i : RuleId} (hp : s.IsParent p i) (hq : s.IsParent q i) : p = q := by
  obtain ⟨r, hr, hp⟩ := hp
  obtain ⟨r', hr', hq⟩ := hq
  rw [hr, Option.some.injEq] at hr'
  rw [hr', hq, Option.some.injEq] at hp
  exact hp.symm

/-- A set of open rules with a property of their expressions, tied to their parents. -/
structure IsTied (P : Expr → Prop) (s : RuleSet) : Prop where
  isOpen : ∀ {i : RuleId} {r : Rule}, s.rules[i]? = some r → r.closed = false
  exprs : ∀ {i : RuleId} {r : Rule}, s.rules[i]? = some r → ∀ e ∈ r.exprs, P e
  parents : ∀ {p i : RuleId}, s.IsParent p i → p < s.size
  children : ∀ {p i : RuleId} {q : Rule}, s.rules[p]? = some q →
    (i ∈ q.children ↔ s.IsParent p i)
  children_nodup : ∀ {p : RuleId} {q : Rule}, s.rules[p]? = some q → q.children.Nodup
  roots : ∀ {i : RuleId}, i ∈ s.roots ↔ ∃ r, s.rules[i]? = some r ∧ r.parent = none
  roots_nodup : s.roots.Nodup

theorem getElem?_of_tied {count : Nat} {i : RuleId} {r : Rule}
    (h : (s.tied count).rules[i]? = some r) :
    ∃ r', s.rules[i]? = some r' ∧ r = { r' with
      parent := if i < count then s.parentOf? i else none
      children := (List.range count).filter fun j => s.parentOf? j = some i } := by
  rw [getElem?_tied] at h
  obtain ⟨r', hr', rfl⟩ := Option.map_eq_some_iff.1 h
  exact ⟨r', hr', rfl⟩

theorem isParent_tied {p i : RuleId} :
    (s.tied s.size).IsParent p i ↔ s.parentOf? i = some p := by
  constructor
  · rintro ⟨r, hr, hp⟩
    obtain ⟨r', hr', rfl⟩ := getElem?_of_tied hr
    have hlt : i < s.size := (Array.getElem?_eq_some_iff.1 hr').1
    simpa [hlt] using hp
  · intro hp
    cases hr : s.rules[i]? with
    | none => simp [parentOf?, hr] at hp
    | some r =>
        have hlt : i < s.size := (Array.getElem?_eq_some_iff.1 hr).1
        refine ⟨_, by rw [getElem?_tied, hr, Option.map_some], ?_⟩
        simpa [hlt] using hp

theorem lt_of_parentOf? {i : RuleId} {q : RuleId} (h : s.parentOf? i = some q) : i < s.size := by
  cases hr : s.rules[i]? with
  | none => simp [parentOf?, hr] at h
  | some r => exact (Array.getElem?_eq_some_iff.1 hr).1

theorem isTied_tied (hs : s.IsCollection P) (hno : ∀ i, ¬ s.IsOrphan i) :
    (s.tied s.size).IsTied P where
  isOpen hr := by
    obtain ⟨r', hr', rfl⟩ := getElem?_of_tied hr
    exact (hs.raw hr').closed
  exprs hr := by
    obtain ⟨r', hr', rfl⟩ := getElem?_of_tied hr
    exact (hs.raw hr').exprs
  parents {p i} h := by
    rw [isParent_tied] at h
    obtain ⟨name, -, hp⟩ := Option.bind_eq_some_iff.1 h
    obtain ⟨q, hq, -⟩ := Option.map_eq_some_iff.1 ((hs.indexed.lookup name p).1 hp)
    rw [show (s.tied s.size).size = s.size by simp [tied, size]]
    exact (Array.getElem?_eq_some_iff.1 hq).1
  children {p i q} hq := by
    obtain ⟨q', -, rfl⟩ := getElem?_of_tied hq
    rw [isParent_tied]
    simp only [List.mem_filter, List.mem_range, decide_eq_true_eq]
    exact ⟨And.right, fun h => ⟨lt_of_parentOf? h, h⟩⟩
  children_nodup hq := by
    obtain ⟨q', -, rfl⟩ := getElem?_of_tied hq
    exact List.nodup_range.filter _
  roots {i} := by
    show i ∈ (List.range s.size).filter _ ↔ _
    simp only [List.mem_filter, List.mem_range, decide_eq_true_eq, getElem?_tied]
    constructor
    · rintro ⟨hlt, hname⟩
      have hr : s.rules[i]? = some s.rules[i] := Array.getElem?_eq_getElem hlt
      refine ⟨_, by rw [hr, Option.map_some], ?_⟩
      simp [parentOf?, hname]
    · rintro ⟨r, hr, hparent⟩
      obtain ⟨r', hr', rfl⟩ := Option.map_eq_some_iff.1 hr
      have hlt : i < s.size := (Array.getElem?_eq_some_iff.1 hr').1
      refine ⟨hlt, ?_⟩
      simp only [hlt, if_true, parentOf?, hr', Option.bind_some] at hparent ⊢
      cases hname : r'.parentName with
      | none => rfl
      | some name =>
          rw [hname, Option.bind_some] at hparent
          exact absurd ⟨r', name, hr', hname, hs.indexed.lookup_eq_none_iff.1 hparent⟩ (hno i)
  roots_nodup := List.nodup_range.filter _

end RuleScan.RuleSet
