import Mathlib.Logic.Relation
import RuleScan.Proofs.Rule.Closing

/-!
# Linking is exact

Linking a collection of rules fails for one of two reasons.  It reports an unknown parent
exactly when some rule names a parent that no rule has, and otherwise a cycle exactly when
some rule is its own ancestor; the rule that it reports is such a rule.  In every other case
it succeeds: expressions were simplified as they were read, so none fails to fold now, and no
rule is closed twice.

## Main results

* `cycleMember_isAncestor` — following parents from an open rule ends on a cycle.
* `isLinked_of_closed` — the set that the walk leaves behind.
* `linksExactly_collect` — when linking a collection fails, and what it makes otherwise.
-/

namespace RuleScan.RuleSet

open Relation

variable {s a t : RuleSet} {count : Nat} {P : Expr → Prop}

/-! ## Parents by name -/

/-- The rule at position `i` names the rule at position `p` as its parent. -/
def Names (s : RuleSet) (p i : RuleId) : Prop :=
  ∃ name, s.rules[i]?.bind Rule.parentName = some name ∧ s.idAt? p = some name

/-- Some rule names a parent that no rule has. -/
def HasOrphan (s : RuleSet) : Prop := ∃ i, s.IsOrphan i

/-- Some rule is reached by following parents from itself. -/
def HasCycle (s : RuleSet) : Prop := ∃ i, TransGen s.Names i i

theorem IsIndexed.names_iff (hs : s.IsIndexed) {p i : RuleId} :
    s.Names p i ↔ s.parentOf? i = some p := by
  unfold Names parentOf?
  rw [Option.bind_eq_some_iff]
  exact exists_congr fun name => and_congr_right fun _ => (hs.lookup name p).symm

theorem isParent_tied_eq (hs : s.IsIndexed) : (s.tied s.size).IsParent = s.Names := by
  funext p i
  rw [eq_iff_iff, isParent_tied, hs.names_iff]

theorem not_transGen_self {r : RuleId → RuleId → Prop} {i : RuleId} (h : Acc r i) :
    ¬ TransGen r i i := by
  replace h := h.transGen
  induction h with
  | intro i _ ih => exact fun hi => ih i hi hi

theorem size_tied (s : RuleSet) (k : Nat) : (s.tied k).size = s.size := by simp [tied, size]

/-- The ways to find a rule depend on the ids and sources of the rules alone. -/
theorem IsIndexed.of_eq (hs : s.IsIndexed) (hsize : t.size = s.size) (hindex : t.index = s.index)
    (hsources : t.sources = s.sources) (hid : ∀ i, t.idAt? i = s.idAt? i)
    (hsource : ∀ i : RuleId, t.rules[i]?.map Rule.source = s.rules[i]?.map Rule.source) :
    t.IsIndexed where
  lookup id i := by
    rw [hid, ← hs.lookup id i, RuleSet.lookup, RuleSet.lookup, hindex]
  sources source := by
    rw [hsources, hs.sources source, declaredIn, declaredIn, hsize]
    exact List.filter_congr fun i _ => by rw [hsource]
  declares source is h := hs.declares source is (hsources ▸ h)

/-- What tying leaves alone is as it was read. -/
theorem map_tied {β : Type} {f : Rule → β} (hf : ∀ (r : Rule) parent children,
    f { r with parent := parent, children := children } = f r) {k : Nat} (i : RuleId) :
    (s.tied k).rules[i]?.map f = s.rules[i]?.map f := by
  rw [getElem?_tied, Option.map_map]
  exact congrArg (Option.map · _) (funext fun r => hf r _ _)

/-! ## Finding a cycle -/

namespace IsClosing

/-- What closing leaves alone is as it was tied. -/
theorem map_rule (h : IsClosing a t [] count) {β : Type} {f : Rule → β}
    (hf : ∀ r metadata, f (Rule.bound r metadata) = f r) (i : RuleId) :
    t.rules[i]?.map f = a.rules[i]?.map f := by
  cases hr : a.rules[i]? with
  | none =>
      have hsize : t.rules.size ≤ i := by
        rw [show t.rules.size = a.rules.size from h.size]
        exact Array.getElem?_eq_none_iff.1 hr
      rw [Array.getElem?_eq_none_iff.2 hsize]
  | some r =>
      rcases h.rule hr with hsame | hbound
      · rw [hsame]
      · rw [hbound, Option.map_some, Option.map_some, hf]

theorem isParent_iff (h : IsClosing a t [] count) {p i : RuleId} :
    t.IsParent p i ↔ a.IsParent p i := by
  have hiff : ∀ u : RuleSet, u.IsParent p i ↔ u.rules[i]?.map Rule.parent = some (some p) :=
    fun u => Option.map_eq_some_iff.symm
  rw [hiff, hiff, h.map_rule fun _ _ => rfl]

/-- A rule that was left open has a parent that was left open. -/
theorem exists_open_parent (ha : a.IsTied P) (h : IsClosing a t [] count) {i : RuleId}
    (hi : i < a.size) (hopen : ¬ t.IsClosed i) :
    ∃ p, t.rules[i]?.bind Rule.parent = some p ∧ p < a.size ∧ ¬ t.IsClosed p := by
  have hr : a.rules[i]? = some a.rules[i] := Array.getElem?_eq_getElem hi
  rw [h.getElem?_open hr hopen, Option.bind_some]
  cases hp : a.rules[i].parent with
  | none => exact absurd (h.roots i (ha.roots.2 ⟨_, hr, hp⟩)) (by simpa using hopen)
  | some p =>
      have hparent : a.IsParent p i := ⟨_, hr, hp⟩
      refine ⟨p, rfl, ha.parents hparent, fun hclosed => hopen ?_⟩
      simpa using (h.reached hparent).1 hclosed

end IsClosing

theorem idAt?_of_closing (h : IsClosing (s.tied s.size) t [] count) (i : RuleId) :
    t.idAt? i = s.idAt? i :=
  (h.map_rule (fun _ _ => rfl) i).trans (map_tied (fun _ _ _ => rfl) i)

theorem lt_size_of_transGen {p i : RuleId} (h : TransGen a.IsParent p i) : i < a.size := by
  have hlt : ∀ {q}, a.IsParent q i → i < a.size := fun ⟨r, hr, _⟩ =>
    (Array.getElem?_eq_some_iff.1 hr).1
  cases h with
  | single h => exact hlt h
  | tail _ h => exact hlt h

/-- Parents are followed through open rules, each of which is an ancestor of those before it.
Since there are fewer rules than steps, some rule comes up twice. -/
theorem cycleMember_isAncestor (ha : a.IsTied P) (h : IsClosing a t [] count) (budget : Nat)
    (seen : List RuleId) {i : RuleId} (hi : i < a.size) (hopen : ¬ t.IsClosed i)
    (hseen : ∀ j ∈ seen, j < a.size ∧ TransGen a.IsParent i j) (hnodup : seen.Nodup)
    (hbudget : a.size < budget + seen.length) :
    TransGen a.IsParent (t.cycleMember budget seen i) (t.cycleMember budget seen i) := by
  induction budget generalizing seen i with
  | zero =>
      have hsub : seen ⊆ List.range a.size := fun j hj => List.mem_range.2 (hseen j hj).1
      have hle := hnodup.length_le_of_subset hsub
      rw [List.length_range] at hle
      omega
  | succ budget ih =>
      unfold cycleMember
      by_cases hmem : i ∈ seen
      · rw [if_pos hmem]
        exact (hseen i hmem).2
      · rw [if_neg hmem]
        obtain ⟨p, hp, hlt, hopen'⟩ := h.exists_open_parent ha hi hopen
        have hparent : a.IsParent p i := by
          rw [← h.isParent_iff]
          exact Option.bind_eq_some_iff.1 hp
        simp only [hp]
        refine ih (i :: seen) hlt hopen' (fun j hj => ?_) (List.nodup_cons.2 ⟨hmem, hnodup⟩) ?_
        · rcases List.mem_cons.1 hj with rfl | hj
          · exact ⟨hi, TransGen.single hparent⟩
          · exact ⟨(hseen j hj).1, TransGen.trans (TransGen.single hparent) (hseen j hj).2⟩
        · rw [List.length_cons]
          omega

/-- The cycle that is reported when some rule was left open is one. -/
theorem cycleError_isAncestor (ha : a.IsTied P) (h : IsClosing a t [] count)
    (hcount : count < t.size) :
    ∃ i q, t.rules[i]? = some q ∧ t.cycleError = .inheritanceCycle q.id ∧
      TransGen a.IsParent i i := by
  cases hfind : t.rules.findIdx? (fun r => !r.closed) with
  | none =>
      have hall : t.rules.countP Rule.closed = t.rules.size := by
        rw [Array.countP_eq_size]
        exact fun r hr => by simpa using Array.findIdx?_eq_none_iff.1 hfind r hr
      have hlt : count < t.rules.size := hcount
      rw [h.count, hall] at hlt
      omega
  | some start =>
      obtain ⟨hlt, hopen, -⟩ := Array.findIdx?_eq_some_iff_getElem.1 hfind
      have hstart : ¬ t.IsClosed start := by
        rintro ⟨r, hr, hclosed⟩
        rw [Array.getElem?_eq_getElem hlt, Option.some.injEq] at hr
        simp [hr, hclosed] at hopen
      have hcycle := cycleMember_isAncestor ha h (t.size + 1) []
        (h.size ▸ hlt : start < a.size) hstart (fun j hj => nomatch hj) List.nodup_nil (by
          rw [h.size]
          simp)
      have hlt' : t.cycleMember (t.size + 1) [] start < t.size :=
        Nat.lt_of_lt_of_eq (lt_size_of_transGen hcycle) h.size.symm
      have hq := Array.getElem?_eq_getElem hlt'
      refine ⟨_, _, hq, ?_, hcycle⟩
      simp [cycleError, hfind, idAt?, hq]

/-! ## Linked sets -/

/-- The rule at position `i` is a child of the rule at position `p`. -/
def IsChild (t : RuleSet) (p i : RuleId) : Prop := ∃ q, t.rules[p]? = some q ∧ i ∈ q.children

/-- The children of a rule are the rules that name it as their parent, and the roots are the
rules that name none, all in the order in which the rules were declared. -/
structure IsForest (t : RuleSet) : Prop where
  children : ∀ {p : RuleId} {q : Rule}, t.rules[p]? = some q →
    q.children = (List.range t.size).filter fun i => t.rules[i]?.bind Rule.parentName = some q.id
  roots : t.roots = (List.range t.size).filter fun i => t.rules[i]?.bind Rule.parentName = none
  indexed : t.IsIndexed

/-- A child names its parent. -/
theorem IsForest.names_of_isChild (ht : t.IsForest) {p i : RuleId} (h : t.IsChild p i) :
    t.Names p i := by
  obtain ⟨q, hq, hi⟩ := h
  rw [ht.children hq, List.mem_filter] at hi
  exact ⟨q.id, of_decide_eq_true hi.2, by rw [idAt?, hq, Option.map_some]⟩

/-- The outcome `t` of linking the collection `s`.  The rules are those of the collection, each
closed under the metadata of its parent, and their links are those that the names say. -/
structure IsLinked (s t : RuleSet) : Prop where
  size : t.size = s.size
  rules : ∀ {i : RuleId} {q : Rule}, t.rules[i]? = some q → ∃ r, s.rules[i]? = some r ∧
    q = { r with parent := q.parent, children := q.children }.bound
      (r.metadata.setParent (t.parentMetadata q))
  closed : ∀ {i : RuleId} {q : Rule}, t.rules[i]? = some q → q.closed = true
  parents : ∀ {p i : RuleId}, t.IsParent p i ↔ t.Names p i
  children : ∀ {p : RuleId} {q : Rule}, t.rules[p]? = some q →
    q.children = (List.range t.size).filter fun i =>
      t.rules[i]?.bind Rule.parentName = some q.id
  roots : t.roots = (List.range t.size).filter fun i => t.rules[i]?.bind Rule.parentName = none
  reachable : ∀ i < t.size, ∃ root ∈ t.roots, ReflTransGen t.IsChild root i ∧
    ∀ other ∈ t.roots, ReflTransGen t.IsChild other i → other = root
  indexed : t.IsIndexed

theorem IsLinked.isForest (ht : s.IsLinked t) : t.IsForest := ⟨ht.children, ht.roots, ht.indexed⟩

/-- How the linking of a collection ends. -/
structure LinksExactly (s : RuleSet) : Prop where
  orphan_iff : (∃ child parent, s.linked = .error (.unknownParent child parent)) ↔ s.HasOrphan
  orphan : ∀ child parent, s.linked = .error (.unknownParent child parent) →
    (∃ (i : RuleId) (r : Rule), s.rules[i]? = some r ∧ r.id = child ∧
      r.parentName = some parent) ∧ ∀ j, s.idAt? j ≠ some parent
  cycle_iff : ¬ s.HasOrphan →
    ((∃ id, s.linked = .error (.inheritanceCycle id)) ↔ s.HasCycle)
  cycle : ∀ id, s.linked = .error (.inheritanceCycle id) →
    ∃ i, s.idAt? i = some id ∧ TransGen s.Names i i
  linked_iff : (∃ t, s.linked = .ok t) ↔ ¬ s.HasOrphan ∧ ¬ s.HasCycle
  linked : ∀ t, s.linked = .ok t → s.IsLinked t

section Closed

variable (hs : s.IsCollection P) (hno : ¬ s.HasOrphan)
  (h : IsClosing (s.tied s.size) t [] count) (hall : ∀ i < s.size, t.IsClosed i)

include h hall

/-- Each rule of the outcome is the rule of the collection, tied and closed. -/
theorem rule_of_closed (hs : s.IsCollection P) (hno : ¬ s.HasOrphan) {i : RuleId} {q : Rule}
    (hq : t.rules[i]? = some q) :
    ∃ r, s.rules[i]? = some r ∧
      q.children = (List.range s.size).filter (fun j => s.parentOf? j = some i) ∧
      q = { r with parent := q.parent, children := q.children }.bound
        (r.metadata.setParent (t.parentMetadata q)) := by
  have hsize : t.rules.size = s.rules.size := h.size.trans (size_tied s s.size)
  have hi : i < s.rules.size := hsize ▸ (Array.getElem?_eq_some_iff.1 hq).1
  have hr : s.rules[i]? = some s.rules[i] := Array.getElem?_eq_getElem hi
  have hr' := getElem?_tied s s.size i
  rw [hr, Option.map_some] at hr'
  have hclosed := h.getElem?_closed (isTied_tied hs fun i hi => hno ⟨i, hi⟩) hr' (hall i hi)
  rw [hq, Option.some.injEq] at hclosed
  refine ⟨_, hr, ?_, ?_⟩
  · rw [hclosed]
    rfl
  · rw [hclosed]
    rfl

end Closed

/-- Every rule with finitely many ancestors is below exactly one root. -/
theorem exists_root {i : RuleId} (hacc : Acc t.IsParent i) (hi : i < t.size)
    (hchild : ∀ {p j}, t.IsChild p j ↔ t.IsParent p j)
    (hroots : ∀ {j}, j ∈ t.roots ↔ ∃ r, t.rules[j]? = some r ∧ r.parent = none) :
    ∃ root ∈ t.roots, ReflTransGen t.IsChild root i ∧
      ∀ other ∈ t.roots, ReflTransGen t.IsChild other i → other = root := by
  induction hacc with
  | intro i _ ih =>
      have hr : t.rules[i]? = some t.rules[i] := Array.getElem?_eq_getElem hi
      cases hp : t.rules[i].parent with
      | none =>
          refine ⟨i, hroots.2 ⟨_, hr, hp⟩, ReflTransGen.refl, fun other _ hother => ?_⟩
          rcases ReflTransGen.cases_tail hother with heq | ⟨p, -, hpi⟩
          · exact heq.symm
          · obtain ⟨r, hr', hp'⟩ := hchild.1 hpi
            rw [hr, Option.some.injEq] at hr'
            rw [← hr', hp] at hp'
            cases hp'
      | some p =>
          have hparent : t.IsParent p i := ⟨_, hr, hp⟩
          obtain ⟨q, hq, -⟩ := hchild.2 hparent
          obtain ⟨root, hroot, hreach, hunique⟩ :=
            ih p hparent (Array.getElem?_eq_some_iff.1 hq).1
          refine ⟨root, hroot, hreach.tail (hchild.2 hparent), fun other hmem hother => ?_⟩
          rcases ReflTransGen.cases_tail hother with heq | ⟨p', hp', hpi⟩
          · obtain ⟨r, hr', hnone⟩ := hroots.1 hmem
            rw [← heq, hr, Option.some.injEq] at hr'
            rw [← hr', hp] at hnone
            cases hnone
          · exact hunique other hmem ((hchild.1 hpi).unique hparent ▸ hp')

/-- The set that the walk leaves behind, when it has closed every rule. -/
theorem isLinked_of_closed (hs : s.IsCollection P) (hno : ¬ s.HasOrphan)
    (h : IsClosing (s.tied s.size) t [] count) (hall : ∀ i < s.size, t.IsClosed i) :
    s.IsLinked t := by
  have ha := isTied_tied hs fun i hi => hno ⟨i, hi⟩
  have hsize : t.size = s.size := h.size.trans (size_tied s s.size)
  have hrule {i : RuleId} {q : Rule} (hq : t.rules[i]? = some q) :=
    rule_of_closed h hall hs hno hq
  have hid : ∀ i, t.idAt? i = s.idAt? i := idAt?_of_closing h
  have hsource : ∀ i : RuleId, t.rules[i]?.map Rule.source = s.rules[i]?.map Rule.source :=
    fun i => (h.map_rule (fun _ _ => rfl) i).trans (map_tied (fun _ _ _ => rfl) i)
  have hname : ∀ i : RuleId,
      t.rules[i]?.bind Rule.parentName = s.rules[i]?.bind Rule.parentName := by
    intro i
    have hmap := (h.map_rule (f := Rule.parentName) (fun _ _ => rfl) i).trans
      (map_tied (fun _ _ _ => rfl) i)
    cases hq : t.rules[i]? <;> cases hr : s.rules[i]? <;> simp_all
  have hparent : ∀ {p i : RuleId}, t.IsParent p i ↔ s.parentOf? i = some p := fun {p i} => by
    rw [h.isParent_iff, isParent_tied]
  have hnames : ∀ {p i : RuleId}, t.Names p i ↔ s.parentOf? i = some p := fun {p i} => by
    rw [← hs.indexed.names_iff]
    unfold Names
    rw [hname, hid]
  have hchild : ∀ {p i : RuleId}, t.IsChild p i ↔ t.IsParent p i := by
    intro p i
    rw [hparent]
    constructor
    · rintro ⟨q, hq, hi⟩
      obtain ⟨r, -, hchildren, -⟩ := hrule hq
      rw [hchildren, List.mem_filter] at hi
      exact of_decide_eq_true hi.2
    · intro hp
      have hlt : p < t.size := h.size ▸ ha.parents (isParent_tied.2 hp)
      have hq : t.rules[p]? = some t.rules[p] := Array.getElem?_eq_getElem hlt
      obtain ⟨r, -, hchildren, -⟩ := hrule hq
      refine ⟨_, hq, ?_⟩
      rw [hchildren, List.mem_filter]
      exact ⟨List.mem_range.2 (lt_of_parentOf? hp), decide_eq_true hp⟩
  have hframe : t.roots = (s.tied s.size).roots ∧ t.index = s.index ∧ t.sources = s.sources := by
    rw [h.frame]
    exact ⟨rfl, rfl, rfl⟩
  obtain ⟨hroots, hindex, hsources⟩ := hframe
  have hroot : ∀ {j}, j ∈ t.roots ↔ ∃ r, t.rules[j]? = some r ∧ r.parent = none := fun {j} => by
    rw [hroots, ha.roots, ← Option.map_eq_some_iff, ← Option.map_eq_some_iff,
      h.map_rule fun _ _ => rfl]
  have hacc : t.IsParent = (s.tied s.size).IsParent := by
    funext p i
    exact propext h.isParent_iff
  exact {
    size := hsize
    rules := fun hq => by
      obtain ⟨r, hr, -, heq⟩ := hrule hq
      exact ⟨r, hr, heq⟩
    closed := fun hq => by
      obtain ⟨r, hr, -, heq⟩ := hrule hq
      rw [heq]
      rfl
    parents := hparent.trans hnames.symm
    children := fun {p q} hq => by
      obtain ⟨r, hr, hchildren, -⟩ := hrule hq
      rw [hchildren, hsize]
      refine List.filter_congr fun i _ => ?_
      rw [decide_eq_decide, ← hnames]
      have hat : t.idAt? p = some q.id := by rw [idAt?, hq, Option.map_some]
      simp [Names, hat]
    roots := by
      rw [hroots, hsize]
      exact List.filter_congr fun i _ => by rw [hname]
    reachable := fun i hi =>
      exists_root (hacc ▸ h.grounded (hall i (hsize ▸ hi))) hi hchild hroot
    indexed := hs.indexed.of_eq hsize hindex hsources hid hsource }

/-! ## The outcome of linking -/

/-- Linking a collection with an orphan reports an orphan. -/
theorem linked_of_orphan (hs : s.IsCollection P) (horphan : s.HasOrphan) :
    ∃ (i : RuleId) (r : Rule) (name : String),
      s.linked = .error (.unknownParent r.id name) ∧
      s.rules[i]? = some r ∧ r.parentName = some name ∧ ∀ j, s.idAt? j ≠ some name := by
  rcases attachAll_collection hs with ⟨-, hnone⟩ | ⟨i, r, name, hattach, h⟩
  · obtain ⟨i, hi⟩ := horphan
    exact absurd hi (hnone i)
  · refine ⟨i, r, name, ?_, h⟩
    unfold linked link
    generalize attachAll (List.range s.size) s = outcome at hattach
    obtain ⟨answer, t⟩ := outcome
    cases hattach
    rfl

/-- What linking does to a collection without orphans. -/
theorem linked_of_no_orphan (hs : s.IsCollection Expr.IsFolded) (hno : ¬ s.HasOrphan) :
    (¬ s.HasCycle ∧ ∃ t, s.linked = .ok t ∧ s.IsLinked t) ∨
    ∃ i id, s.idAt? i = some id ∧ s.linked = .error (.inheritanceCycle id) ∧
      TransGen s.Names i i := by
  have hattach : attachAll (List.range s.size) s = (.ok (), s.tied s.size) := by
    rcases attachAll_collection hs with ⟨hall, -⟩ | ⟨i, r, name, -, hr, hname, hnot⟩
    · exact hall
    · exact absurd ⟨i, r, name, hr, hname, hnot⟩ hno
  have ha := isTied_tied hs fun i hi => hno ⟨i, hi⟩
  obtain ⟨n, t, hclose, h⟩ := closeAll_isClosing ha
  have hlinked : s.linked = if n < t.size then .error t.cycleError else .ok t := by
    unfold linked link
    rw [hattach]
    dsimp only
    rw [hclose]
    by_cases hcount : n < t.size <;> simp [hcount]
  have hnames := isParent_tied_eq hs.indexed
  have hsize := size_tied s s.size
  by_cases hcount : n < t.size
  · obtain ⟨i, q, hq, herror, hcycle⟩ := cycleError_isAncestor ha h hcount
    refine Or.inr ⟨i, q.id, ?_, by rw [hlinked, if_pos hcount, herror], hnames ▸ hcycle⟩
    rw [← idAt?_of_closing h, idAt?, hq, Option.map_some]
  · have hall : ∀ i < s.size, t.IsClosed i := fun i hi =>
      isClosed_of_count h hcount (hsize.symm ▸ hi)
    refine Or.inl ⟨?_, t, by rw [hlinked, if_neg hcount], isLinked_of_closed hs hno h hall⟩
    rintro ⟨i, hi⟩
    rw [← hnames] at hi
    exact not_transGen_self (h.grounded (hall i (hsize ▸ lt_size_of_transGen hi))) hi

/-- What a collection is linked to, if it can be. -/
theorem isLinked_of_linked (hs : s.IsCollection Expr.IsFolded) (h : s.linked = .ok t) :
    s.IsLinked t := by
  by_cases horphan : s.HasOrphan
  · obtain ⟨i, r, name, hlinked, -⟩ := linked_of_orphan hs horphan
    rw [hlinked] at h
    cases h
  · rcases linked_of_no_orphan hs horphan with ⟨-, t', hlinked, ht⟩ | ⟨i, id, -, hlinked, -⟩
    · rw [hlinked] at h
      cases h
      exact ht
    · rw [hlinked] at h
      cases h

/-- Linking fails on a collection for an orphan, and otherwise for a cycle; if there is neither
it makes a linked set. -/
theorem linksExactly_collect (signatures : String → Option Signature)
    (sources : List (String × String)) : (collect signatures sources).LinksExactly := by
  generalize hs : collect signatures sources = s
  replace hs : s.IsCollection Expr.IsFolded := hs ▸ isCollection_isFolded signatures sources
  by_cases horphan : s.HasOrphan
  · obtain ⟨i, r, name, hlinked, hr, hname, hnot⟩ := linked_of_orphan hs horphan
    refine ⟨?_, ?_, fun h => absurd horphan h, ?_, ?_, fun t => isLinked_of_linked hs⟩ <;>
      rw [hlinked]
    · exact iff_of_true ⟨_, _, rfl⟩ horphan
    · rintro child parent ⟨⟩
      exact ⟨⟨i, r, hr, rfl, hname⟩, hnot⟩
    · rintro id ⟨⟩
    · exact iff_of_false (fun ⟨t, h⟩ => nomatch h) fun h => h.1 horphan
  · rcases linked_of_no_orphan hs horphan with
      ⟨hno, t, hlinked, -⟩ | ⟨i, id, hid, hlinked, hcycle⟩
    · refine ⟨?_, ?_, fun _ => ?_, ?_, ?_, fun t => isLinked_of_linked hs⟩ <;> rw [hlinked]
      · exact iff_of_false (fun ⟨child, parent, h⟩ => nomatch h) horphan
      · rintro child parent ⟨⟩
      · exact iff_of_false (fun ⟨id, h⟩ => nomatch h) hno
      · rintro id ⟨⟩
      · exact iff_of_true ⟨t, rfl⟩ ⟨horphan, hno⟩
    · refine ⟨?_, ?_, fun _ => ?_, ?_, ?_, fun t => isLinked_of_linked hs⟩ <;> rw [hlinked]
      · exact iff_of_false (fun ⟨child, parent, h⟩ => nomatch h) horphan
      · rintro child parent ⟨⟩
      · exact iff_of_true ⟨id, rfl⟩ ⟨i, hcycle⟩
      · rintro id ⟨⟩
        exact ⟨i, hid, hcycle⟩
      · exact iff_of_false (fun ⟨t, h⟩ => nomatch h) fun h => h.2 ⟨i, hcycle⟩

end RuleScan.RuleSet
