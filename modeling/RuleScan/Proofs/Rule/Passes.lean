import Mathlib.Data.List.Induction
import RuleScan.Proofs.Rule.Kinship

/-!
# The order in which roots run

Roots are filed under their passes one after the other, and the passes are kept in ascending
order.  So a pass lists the roots that belong to it, in the order in which they came, and since
the roots of a linked set come in the order of their declaration, the lists of all passes, one
behind the other, are the roots ordered by pass and, within a pass, by declaration.

Which pass a rule belongs to is read off its metadata, whatever stands there, and does not
matter for that.

## Main results

* `under_insertPass` — filing a root adds it to the list of its pass and to no other.
* `filed_foldl` — what is filed under which pass, after any number of roots.
* `IsForest.runsInPassOrder` — the roots of a linked set in the order in which they run.
-/

namespace RuleScan.RuleSet

/-- The pass of the rule at a position. -/
def passAt (s : RuleSet) (i : RuleId) : Int := (s.rules[i]?.map Rule.pass).getD 0

/-! ## Filing -/

variable {f : RuleId → Int} {ps : List (Int × List RuleId)} {is : List RuleId} {i : RuleId}
  {p q : Int}

/-- Passes in ascending order, each of which has roots. -/
structure Ascends (ps : List (Int × List RuleId)) : Prop where
  sorted : (ps.map Prod.fst).Pairwise (· < ·)
  filled : ∀ x ∈ ps, x.2 ≠ []

theorem mem_keys_insertPass :
    p ∈ (insertPass q i ps).map Prod.fst ↔ p = q ∨ p ∈ ps.map Prod.fst := by
  induction ps with
  | nil => simp [insertPass]
  | cons x rest ih =>
    obtain ⟨a, ids⟩ := x
    unfold insertPass
    split
    · simp
    · split
      · next heq => simp [heq]
      · rw [List.map_cons, List.mem_cons, ih, List.map_cons, List.mem_cons]
        exact or_left_comm

theorem Ascends.insertPass (h : Ascends ps) (q : Int) (i : RuleId) :
    Ascends (insertPass q i ps) := by
  induction ps with
  | nil => exact ⟨by simp [RuleSet.insertPass], by simp [RuleSet.insertPass]⟩
  | cons x rest ih =>
    obtain ⟨a, ids⟩ := x
    obtain ⟨hfirst, hrest⟩ := List.pairwise_cons.1 h.sorted
    obtain ⟨hids, hfilled⟩ := List.forall_mem_cons.1 h.filled
    unfold RuleSet.insertPass
    split
    · next hlt =>
      have hlow : ∀ b ∈ ((a, ids) :: rest).map Prod.fst, q < b :=
        List.forall_mem_cons.2 ⟨hlt, fun b hb => Int.lt_trans hlt (hfirst b hb)⟩
      exact ⟨List.pairwise_cons.2 ⟨hlow, h.sorted⟩, List.forall_mem_cons.2 ⟨by simp, h.filled⟩⟩
    · next hle =>
      split
      · exact ⟨h.sorted, List.forall_mem_cons.2 ⟨by simp, hfilled⟩⟩
      · next hne =>
        obtain ⟨hsorted', hfilled'⟩ := ih ⟨hrest, hfilled⟩
        refine ⟨List.pairwise_cons.2 ⟨fun b hb => ?_, hsorted'⟩,
          List.forall_mem_cons.2 ⟨hids, hfilled'⟩⟩
        rcases mem_keys_insertPass.1 hb with rfl | hb
        · show a < b
          omega
        · exact hfirst b hb

/-- The roots that are filed under a pass. -/
def under (p : Int) (ps : List (Int × List RuleId)) : List RuleId := (ps.lookup p).getD []

theorem under_eq_nil (h : p ∉ ps.map Prod.fst) : under p ps = [] := by
  have hnone : ps.lookup p = none := by
    rw [List.lookup_eq_none_iff]
    intro x hx
    simpa using fun heq : p = x.1 => h (heq ▸ List.mem_map_of_mem hx)
  rw [under, hnone, Option.getD_none]

theorem under_cons (p a : Int) (ids : List RuleId) (rest : List (Int × List RuleId)) :
    under p ((a, ids) :: rest) = if p = a then ids else under p rest := by
  unfold under
  rw [List.lookup_cons]
  split <;> simp_all

/-- A root is added to the list of its pass and to no other. -/
theorem under_insertPass (h : Ascends ps) :
    under p (insertPass q i ps) = under p ps ++ if p = q then [i] else [] := by
  induction ps with
  | nil =>
    rw [insertPass, under_cons]
    split <;> rfl
  | cons x rest ih =>
    obtain ⟨a, ids⟩ := x
    obtain ⟨hfirst, hrest⟩ := List.pairwise_cons.1 h.sorted
    have hfilled := (List.forall_mem_cons.1 h.filled).2
    unfold insertPass
    split
    · next hlt =>
      -- the pass is new, for all others are higher
      rw [under_cons]
      split
      · next heq =>
        have hnew : under p ((a, ids) :: rest) = [] := by
          refine under_eq_nil fun hmem => ?_
          rcases List.mem_cons.1 hmem with hpa | hmem
          · have hpa : p = a := hpa
            omega
          · have := hfirst p hmem
            have : a < p := this
            omega
        rw [hnew, List.nil_append]
      · rw [List.append_nil]
    · split
      · next heq =>
        subst heq
        rw [under_cons, under_cons]
        split
        · rfl
        · rw [List.append_nil]
      · next hne =>
        rw [under_cons, under_cons, ih ⟨hrest, hfilled⟩]
        split
        · next hpa =>
          rw [if_neg (by omega), List.append_nil]
        · rfl

/-- What stands in the list is what is filed, pass by pass. -/
theorem Ascends.mem_iff (h : Ascends ps) {ids : List RuleId} :
    (p, ids) ∈ ps ↔ ids = under p ps ∧ ids ≠ [] := by
  induction ps with
  | nil => simp [under]
  | cons x rest ih =>
    obtain ⟨a, others⟩ := x
    obtain ⟨hfirst, hrest⟩ := List.pairwise_cons.1 h.sorted
    obtain ⟨hothers, hfilled⟩ := List.forall_mem_cons.1 h.filled
    have hiff := ih ⟨hrest, hfilled⟩
    rw [List.mem_cons, hiff, under_cons, Prod.mk.injEq]
    by_cases hp : p = a
    · subst hp
      have hnew : under p rest = [] := under_eq_nil fun hmem => by
        have hlt : p < p := hfirst p hmem
        omega
      rw [if_pos rfl, hnew]
      constructor
      · rintro (⟨-, rfl⟩ | ⟨hnil, hne⟩)
        · exact ⟨rfl, hothers⟩
        · exact absurd hnil hne
      · rintro ⟨rfl, -⟩
        exact .inl ⟨rfl, rfl⟩
    · simp [hp]

/-- After any number of roots, each of them is filed under its pass, in the order in which they
came. -/
theorem filed_foldl (f : RuleId → Int) (is : List RuleId) :
    Ascends (is.foldl (fun ps i => insertPass (f i) i ps) []) ∧
      ∀ p, under p (is.foldl (fun ps i => insertPass (f i) i ps) []) =
        is.filter fun i => f i = p := by
  induction is using List.reverseRecOn with
  | nil => exact ⟨⟨.nil, nofun⟩, fun p => rfl⟩
  | append_singleton is i ih =>
    rw [List.foldl_concat]
    refine ⟨ih.1.insertPass (f i) i, fun p => ?_⟩
    rw [under_insertPass ih.1, ih.2, List.filter_append]
    by_cases hp : p = f i
    · simp [hp]
    · simp [hp, Ne.symm hp]

/-! ## The roots of a linked set -/

/-- The roots of a set run pass by pass, each once. -/
structure RunsInPassOrder (t : RuleSet) : Prop where
  /-- The roots are the rules that name no parent, as they are declared. -/
  roots : t.roots = (List.range t.size).filter fun i => t.rules[i]?.bind Rule.parentName = none
  /-- The passes are in ascending order. -/
  ascending : (t.passes.map Prod.fst).Pairwise (· < ·)
  /-- A pass lists the roots that belong to it, of which there are some. -/
  lists : ∀ x ∈ t.passes, x.2 = (t.roots.filter fun i => t.passAt i = x.1) ∧ x.2 ≠ []
  /-- Every root runs, and nothing else. -/
  perm : t.schedule.Perm t.roots
  /-- No root runs twice. -/
  nodup : t.schedule.Nodup
  /-- Roots run by pass and, within a pass, by declaration. -/
  sorted : t.schedule.Pairwise fun i j =>
    t.passAt i < t.passAt j ∨ t.passAt i = t.passAt j ∧ i < j

theorem IsForest.runsInPassOrder {t : RuleSet} (ht : t.IsForest) : t.RunsInPassOrder := by
  obtain ⟨hascends, hunder⟩ := filed_foldl t.passAt t.roots
  have hroots : t.roots.Pairwise (· < ·) := by
    rw [ht.roots]
    exact List.pairwise_lt_range.filter _
  have hlists : ∀ x ∈ t.passes,
      x.2 = (t.roots.filter fun i => t.passAt i = x.1) ∧ x.2 ≠ [] := by
    intro x hx
    obtain ⟨heq, hne⟩ := hascends.mem_iff.1 hx
    exact ⟨heq.trans (hunder x.1), hne⟩
  have hpass : ∀ x ∈ t.passes, ∀ i ∈ x.2, i ∈ t.roots ∧ t.passAt i = x.1 := by
    intro x hx i hi
    rw [(hlists x hx).1, List.mem_filter] at hi
    exact ⟨hi.1, of_decide_eq_true hi.2⟩
  have hsorted : t.schedule.Pairwise fun i j =>
      t.passAt i < t.passAt j ∨ t.passAt i = t.passAt j ∧ i < j := by
    refine List.pairwise_flatMap.2 ⟨fun x hx => ?_, ?_⟩
    · -- within a pass the roots stand as they are declared
      have hlist : x.2.Pairwise (· < ·) := by
        rw [(hlists x hx).1]
        exact hroots.filter _
      refine hlist.imp_of_mem fun hi hj hlt => .inr ⟨?_, hlt⟩
      rw [(hpass x hx _ hi).2, (hpass x hx _ hj).2]
    · -- what stands in a later list belongs to a higher pass
      refine (List.pairwise_map.1 hascends.sorted).imp_of_mem fun {x y} hx hy hlt i hi j hj => ?_
      rw [(hpass x hx i hi).2, (hpass y hy j hj).2]
      exact .inl hlt
  have hnodup : t.schedule.Nodup := hsorted.imp fun h heq => by
    subst heq
    rcases h with h | ⟨-, h⟩
    · exact Int.lt_irrefl _ h
    · exact Nat.lt_irrefl _ h
  refine ⟨ht.roots, hascends.sorted, hlists, ?_, hnodup, hsorted⟩
  refine (List.perm_ext_iff_of_nodup hnodup (hroots.imp fun h => Nat.ne_of_lt h)).2 fun i => ?_
  constructor
  · intro hi
    obtain ⟨x, hx, hi⟩ := List.mem_flatMap.1 hi
    exact (hpass x hx i hi).1
  · intro hi
    -- the list of the root's own pass has the root in it
    have hown : i ∈ under (t.passAt i) t.passes := by
      rw [passes]
      exact (hunder (t.passAt i)).symm ▸ List.mem_filter.2 ⟨hi, by simp⟩
    refine List.mem_flatMap.2 ⟨(t.passAt i, under (t.passAt i) t.passes), ?_, hown⟩
    exact hascends.mem_iff.2 ⟨rfl, List.ne_nil_of_mem hown⟩

end RuleScan.RuleSet
