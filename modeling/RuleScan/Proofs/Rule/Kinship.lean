import RuleScan.Proofs.Rule.Inheritance
import Mathlib.Data.List.Nodup

/-!
# Kinship in linked sets

Who is whose child does not depend on what the rules say.  Closing a rule folds its expressions,
which may fail, but it neither renames nor moves it; so whatever the expressions are, a set that
could be linked is a forest whose links are the ones that the names say.

## Main results

* `map_closeAll` — closing leaves everything but expressions and metadata as it was tied.
* `isForest_of_linked` — a linked set is a forest in the order of declaration.
-/

namespace RuleScan

/-- Closing a rule touches its metadata and expressions, and the note that it is closed. -/
theorem Rule.map_close {β : Type} {f : Rule → β}
    (hf : ∀ (r : Rule) metadata vars conditions actions closed,
      f { r with metadata, vars, conditions, actions, closed } = f r)
    (r : Rule) (parent : Option Register) : f (r.close parent).2 = f r := by
  unfold Rule.close
  split
  · rfl
  · dsimp only
    split
    · exact hf r _ _ _ _ _
    · split
      · exact hf r _ _ _ _ _
      · split
        · exact hf r _ _ _ _ _
        · exact hf r _ _ _ _ _

namespace RuleSet

variable {s t : RuleSet} {P : Expr → Prop}

/-- What closing one rule leaves alone is as it was after all of them, or up to the first that
could not be closed. -/
theorem map_closeAll {β : Type} {f : Rule → β}
    (hf : ∀ (r : Rule) metadata vars conditions actions closed,
      f { r with metadata, vars, conditions, actions, closed } = f r)
    (budget : Nat) (queue : List RuleId) (count : Nat) (s : RuleSet) (i : RuleId) :
    (closeAll budget queue count s).2.rules[i]?.map f = s.rules[i]?.map f := by
  have hset : ∀ (s : RuleSet) {j : RuleId} {r q : Rule}, s.rules[j]? = some r → f q = f r →
      (s.setRule j q).rules[i]?.map f = s.rules[i]?.map f := by
    intro s j r q hr hq
    rw [getElem?_setRule (Array.getElem?_eq_some_iff.1 hr).1]
    split
    · next heq => rw [heq, hr, Option.map_some, Option.map_some, hq]
    · rfl
  induction budget generalizing queue count s with
  | zero => rfl
  | succ budget ih =>
      cases queue with
      | nil => rfl
      | cons j queue =>
          simp only [closeAll]
          cases hr : s.rules[j]? with
          | none => exact ih queue count s
          | some r =>
              have hclose := Rule.map_close hf r (s.parentMetadata r)
              dsimp only
              generalize r.close (s.parentMetadata r) = closed at hclose
              obtain ⟨answer, q⟩ := closed
              cases answer with
              | error e => exact hset s hr hclose
              | ok _ => exact (ih _ _ _).trans (hset s hr hclose)

/-- Closing changes nothing but rules. -/
theorem frame_closeAll (budget : Nat) (queue : List RuleId) (count : Nat) (s : RuleSet) :
    (closeAll budget queue count s).2 =
      { s with rules := (closeAll budget queue count s).2.rules } := by
  induction budget generalizing queue count s with
  | zero => rfl
  | succ budget ih =>
      cases queue with
      | nil => rfl
      | cons i queue =>
          simp only [closeAll]
          split
          · exact ih queue count s
          · split
            · rfl
            · exact ih _ _ (s.setRule i _)

theorem linked_eq_ok (h : s.linked = .ok t) :
    ∃ a, attachAll (List.range s.size) s = (.ok (), a) ∧
      t = (closeAll (a.size + 1) a.roots 0 a).2 := by
  unfold linked link at h
  split at h
  · next u heq =>
    split at heq
    · cases heq
    · next a hattach =>
      split at heq
      · cases heq
      · next count b hclose =>
        split at heq
        · cases heq
        · cases heq
          cases h
          exact ⟨a, hattach, by rw [hclose]⟩
  · cases h

theorem bind_eq_of_map_eq {α β : Type} {f : α → Option β} {o o' : Option α}
    (h : o.map f = o'.map f) : o.bind f = o'.bind f := by
  cases o <;> cases o' <;> simp_all

/-- A set that agrees with a tied collection about the kin of every rule is a forest. -/
theorem isForest_of_kept (hs : s.IsCollection P)
    (hframe : t = { s.tied s.size with rules := t.rules }) (hsize : t.size = (s.tied s.size).size)
    (hkeep : ∀ {β : Type} {f : Rule → β},
      (∀ (r : Rule) metadata vars conditions actions closed,
        f { r with metadata, vars, conditions, actions, closed } = f r) →
      ∀ i : RuleId, t.rules[i]?.map f = (s.tied s.size).rules[i]?.map f) : t.IsForest := by
  have hsize : t.size = s.size := hsize.trans (size_tied s s.size)
  have hid : ∀ i, t.idAt? i = s.idAt? i := fun i =>
    (hkeep (fun _ _ _ _ _ _ => rfl) i).trans (map_tied (fun _ _ _ => rfl) i)
  have hsource : ∀ i : RuleId, t.rules[i]?.map Rule.source = s.rules[i]?.map Rule.source :=
    fun i => (hkeep (fun _ _ _ _ _ _ => rfl) i).trans (map_tied (fun _ _ _ => rfl) i)
  have hname : ∀ i : RuleId,
      t.rules[i]?.bind Rule.parentName = s.rules[i]?.bind Rule.parentName := by
    intro i
    have hmap : t.rules[i]?.map Rule.parentName = s.rules[i]?.map Rule.parentName :=
      (hkeep (fun _ _ _ _ _ _ => rfl) i).trans (map_tied (fun _ _ _ => rfl) i)
    exact bind_eq_of_map_eq hmap
  have hframe' : t.roots = (s.tied s.size).roots ∧ t.index = s.index ∧ t.sources = s.sources := by
    rw [hframe]
    exact ⟨rfl, rfl, rfl⟩
  obtain ⟨hroots, hindex, hsources⟩ := hframe'
  refine ⟨fun {p q} hq => ?_, ?_, hs.indexed.of_eq hsize hindex hsources hid hsource⟩
  · have hchildren := hkeep (f := Rule.children) (fun _ _ _ _ _ _ => rfl) p
    rw [hq, getElem?_tied, Option.map_map] at hchildren
    obtain ⟨r, -, hr⟩ := Option.map_eq_some_iff.1 hchildren.symm
    have hat : s.idAt? p = some q.id := by rw [← hid, idAt?, hq, Option.map_some]
    rw [hsize]
    refine hr.symm.trans (List.filter_congr fun i _ => ?_)
    rw [decide_eq_decide, ← hs.indexed.names_iff, hname]
    simp [Names, hat]
  · rw [hroots, hsize]
    exact List.filter_congr fun i _ => by rw [hname]

/-- Whatever its expressions are, a collection that could be linked is a forest. -/
theorem isForest_of_linked (hs : s.IsCollection P) (h : s.linked = .ok t) : t.IsForest := by
  obtain ⟨a, hattach, rfl⟩ := linked_eq_ok h
  obtain ⟨htied, -⟩ | ⟨i, r, name, herror, -⟩ := attachAll_collection hs
  · rw [hattach] at htied
    cases htied
    exact isForest_of_kept hs (frame_closeAll _ _ _ _) (closeAll_size _ _ _ _)
      fun hf i => map_closeAll hf _ _ _ _ i
  · rw [hattach] at herror
    cases herror

/-! ## Children -/

namespace IsForest

variable {p i : RuleId} {q : Rule}

/-- The children of a rule can be told apart by their ids. -/
theorem nodup_idAt? (ht : t.IsForest) (hq : t.rules[p]? = some q) :
    (q.children.map t.idAt?).Nodup := by
  have hchildren := ht.children hq
  have hnodup : q.children.Nodup := hchildren ▸ List.nodup_range.filter _
  refine List.Nodup.map_on (fun i hi j _ heq => ?_) hnodup
  rw [hchildren, List.mem_filter, List.mem_range] at hi
  have hlt : i < t.rules.size := hi.1
  have hat : t.idAt? i = some t.rules[i].id := by
    rw [idAt?, Array.getElem?_eq_getElem hlt, Option.map_some]
  have hlookup := (ht.indexed.lookup _ i).2 hat
  rw [(ht.indexed.lookup _ j).2 (heq ▸ hat), Option.some.injEq] at hlookup
  exact hlookup.symm

/-- A root is a line of its own. -/
theorem lineage_root (ht : t.IsForest) (hi : i ∈ t.roots) (hq : t.rules[i]? = some q) :
    t.Lineage i [q] := by
  rw [ht.roots, List.mem_filter, hq, Option.bind_some] at hi
  exact .root hq (of_decide_eq_true hi.2)

/-- The line of a child goes on from that of its parent. -/
theorem lineage_child (ht : t.IsForest) {c : Rule} {rs : List Rule} (hrs : t.Lineage p (q :: rs))
    (hq : t.rules[p]? = some q) (hi : i ∈ q.children) (hc : t.rules[i]? = some c) :
    t.Lineage i (c :: q :: rs) :=
  .child hc (ht.names_of_isChild ⟨q, hq, hi⟩) hrs

end IsForest

end RuleSet

end RuleScan
