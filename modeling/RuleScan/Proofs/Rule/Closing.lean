import RuleScan.Proofs.Rule.Attaching

/-!
# Closing the rules of a set

Once every rule is tied to its parent, the rules are closed from the roots downwards.  The
closed rules and the queue are the two ends of the walk: whenever a rule has a parent, that
parent is closed exactly when the rule is closed or waits in the queue (`IsClosing.reached`).
So a rule is taken from the queue only after its parent was closed and before it was closed
itself, and the walk ends when every rule below a root is closed.

A closed rule has only finitely many ancestors, which is said by accessibility along
`IsParent`.  A rule that is left open has a parent that is left open, so following parents from
it never ends; what comes up twice on the way is its own ancestor.

## Main results

* `Rule.close_of_isFolded` — closing a rule whose expressions are simplified.
* `IsClosing.step`, `closeAll_isClosing` — one step of the walk and the whole walk.
* `isClosed_of_count` — when the walk has closed all rules.
* `cycleMember_isAncestor` — the rule that is found by following parents is its own ancestor.
-/

namespace RuleScan

/-! ## Closing one rule -/

namespace Rule

/-- The rule as it stands after it was closed with some metadata. -/
def bound (r : Rule) (metadata : Register) : Rule :=
  { r with
    metadata
    vars := r.vars.mapValues (Expr.bindMetadata metadata)
    conditions := r.conditions.map (Expr.bindMetadata metadata)
    actions := r.actions.map fun a => ⟨a.expr.bindMetadata metadata, a.mode⟩
    closed := true }

theorem settle_of_isFolded {e : Expr} (h : e.IsFolded) (metadata : Register) :
    settle metadata e = .ok (e.bindMetadata metadata) := by
  simp [settle, h.simplify_eq]

theorem updateList_settle {entries : List (String × Expr)}
    (h : ∀ e ∈ entries.map Prod.snd, e.IsFolded) (metadata : Register) :
    Table.updateList (settle metadata) entries =
      (none, entries.map fun (name, e) => (name, e.bindMetadata metadata)) := by
  induction entries with
  | nil => rfl
  | cons entry rest ih =>
      obtain ⟨name, e⟩ := entry
      rw [List.map_cons, List.forall_mem_cons] at h
      simp [Table.updateList, settle_of_isFolded h.1, ih h.2]

theorem settleAll_of_isFolded {es : List Expr} (h : ∀ e ∈ es, e.IsFolded) (metadata : Register) :
    settleAll metadata es = (none, es.map (Expr.bindMetadata metadata)) := by
  induction es with
  | nil => rfl
  | cons e rest ih =>
      rw [List.forall_mem_cons] at h
      simp [settleAll, settle_of_isFolded h.1, ih h.2]

theorem settleActions_of_isFolded {as : List RuleAction} (h : ∀ a ∈ as, a.expr.IsFolded)
    (metadata : Register) : settleActions metadata as =
      (none, as.map fun a => ⟨a.expr.bindMetadata metadata, a.mode⟩) := by
  induction as with
  | nil => rfl
  | cons a rest ih =>
      rw [List.forall_mem_cons] at h
      simp [settleActions, settle_of_isFolded h.1, ih h.2]

/-- Closing an open rule whose expressions are simplified cannot fail. -/
theorem close_of_isFolded {r : Rule} (hopen : r.closed = false)
    (h : ∀ e ∈ r.exprs, e.IsFolded) (parent : Option Register) :
    r.close parent = (.ok (), r.bound (r.metadata.setParent parent)) := by
  have hvars : r.vars.update (settle (r.metadata.setParent parent)) =
      (none, r.vars.mapValues (Expr.bindMetadata (r.metadata.setParent parent))) := by
    have hlist := updateList_settle (fun e he => h e (mem_exprs.2 (Or.inl he)))
      (r.metadata.setParent parent)
    simp only [Table.update, Table.mapValues, hlist]
  have hconditions := settleAll_of_isFolded
    (fun e he => h e (mem_exprs.2 (Or.inr (Or.inl he)))) (r.metadata.setParent parent)
  have hactions := settleActions_of_isFolded
    (fun a ha => h a.expr (mem_exprs.2 (Or.inr (Or.inr ⟨a, ha, rfl⟩))))
    (r.metadata.setParent parent)
  simp [close, hopen, hvars, hconditions, hactions, bound]

end Rule

namespace RuleSet

/-- The rule at a position is closed. -/
def IsClosed (s : RuleSet) (i : RuleId) : Prop := ∃ r, s.rules[i]? = some r ∧ r.closed = true

section SetRule

variable {t : RuleSet} {i j : RuleId} {r : Rule}

theorem getElem?_setRule (hi : i < t.size) :
    (t.setRule i r).rules[j]? = if j = i then some r else t.rules[j]? := by
  simp only [setRule, Array.getElem?_setIfInBounds, show i < t.rules.size from hi, if_true,
    eq_comm]

theorem isClosed_setRule (hi : i < t.size) (hr : r.closed = true) :
    (t.setRule i r).IsClosed j ↔ j = i ∨ t.IsClosed j := by
  unfold IsClosed
  rw [getElem?_setRule hi]
  by_cases h : j = i <;> simp [h, hr]

/-- The metadata that a rule inherits is not touched when some other rule is closed. -/
theorem parentMetadata_setRule (hi : i < t.size) {q : Rule} (hq : q.parent ≠ some i) :
    (t.setRule i r).parentMetadata q = t.parentMetadata q := by
  unfold parentMetadata
  cases hp : q.parent with
  | none => rfl
  | some p =>
      have hne : p ≠ i := fun h => hq (hp.trans (congrArg some h))
      rw [Option.bind_some, Option.bind_some, getElem?_setRule hi, if_neg hne]

end SetRule

/-- The set after the open rule `r` at a position was closed. -/
def closeAt (t : RuleSet) (i : RuleId) (r : Rule) : RuleSet :=
  t.setRule i (r.bound (r.metadata.setParent (t.parentMetadata r)))

/-! ## The walk -/

variable {a t : RuleSet} {queue : List RuleId} {count : Nat} {P : Expr → Prop}

/-- The state of the walk over the tied set `a`: some rules are closed, some wait. -/
structure IsClosing (a t : RuleSet) (queue : List RuleId) (count : Nat) : Prop where
  frame : t = { a with rules := t.rules }
  size : t.size = a.size
  rule : ∀ {i : RuleId} {r : Rule}, a.rules[i]? = some r → t.rules[i]? = some r ∨
    t.rules[i]? = some (r.bound (r.metadata.setParent (t.parentMetadata r)))
  grounded : ∀ {i : RuleId}, t.IsClosed i → Acc a.IsParent i
  reached : ∀ {p i : RuleId}, a.IsParent p i → (t.IsClosed p ↔ t.IsClosed i ∨ i ∈ queue)
  roots : ∀ i ∈ a.roots, t.IsClosed i ∨ i ∈ queue
  nodup : queue.Nodup
  queued : ∀ i ∈ queue, i < a.size ∧ ¬ t.IsClosed i
  count : count = t.rules.countP Rule.closed

theorem isClosing_start (ha : a.IsTied P) : IsClosing a a a.roots 0 := by
  have hopen : ∀ i, ¬ a.IsClosed i := by
    rintro i ⟨r, hr, hclosed⟩
    rw [ha.isOpen hr] at hclosed
    cases hclosed
  refine ⟨rfl, rfl, fun hr => Or.inl hr, fun h => absurd h (hopen _), fun {p i} h => ?_,
    fun i hi => Or.inr hi, ha.roots_nodup, fun i hi => ⟨?_, hopen i⟩, ?_⟩
  · refine ⟨fun hp => absurd hp (hopen p), ?_⟩
    rintro (hi | hi)
    · exact absurd hi (hopen i)
    · obtain ⟨r, hr, hnone⟩ := ha.roots.1 hi
      obtain ⟨r', hr', hp⟩ := h
      rw [hr, Option.some.injEq] at hr'
      rw [← hr', hnone] at hp
      cases hp
  · obtain ⟨r, hr, -⟩ := ha.roots.1 hi
    exact (Array.getElem?_eq_some_iff.1 hr).1
  · refine (Array.countP_eq_zero.2 fun r hr => ?_).symm
    obtain ⟨i, hi, rfl⟩ := Array.getElem_of_mem hr
    simp [ha.isOpen (Array.getElem?_eq_getElem hi)]

namespace IsClosing

variable {i : RuleId} {r : Rule}

/-- A rule that waits is as it was tied. -/
theorem getElem?_open (h : IsClosing a t queue count) (hr : a.rules[i]? = some r)
    (hopen : ¬ t.IsClosed i) : t.rules[i]? = some r :=
  (h.rule hr).resolve_right fun hbound => hopen ⟨_, hbound, rfl⟩

theorem getElem?_closed (h : IsClosing a t queue count) (ha : a.IsTied P)
    (hr : a.rules[i]? = some r) (hclosed : t.IsClosed i) :
    t.rules[i]? = some (r.bound (r.metadata.setParent (t.parentMetadata r))) := by
  refine (h.rule hr).resolve_left fun hsame => ?_
  obtain ⟨r', hr', hc⟩ := hclosed
  rw [hsame, Option.some.injEq] at hr'
  rw [← hr', ha.isOpen hr] at hc
  cases hc

/-! ### One step -/

section Step

variable (ha : a.IsTied P) (h : IsClosing a t (i :: queue) count) (hr : a.rules[i]? = some r)

include h

theorem head_lt_size : i < t.size := by
  rw [h.size]
  exact (h.queued i (List.mem_cons_self ..)).1

theorem head_open : ¬ t.IsClosed i := (h.queued i (List.mem_cons_self ..)).2

/-- What waits or is closed is no child of the head of the queue, which is open. -/
theorem not_isParent_head {j : RuleId} (hj : t.IsClosed j ∨ j ∈ i :: queue) :
    ¬ a.IsParent i j :=
  fun hp => h.head_open ((h.reached hp).2 hj)

theorem isClosed_closeAt {j : RuleId} : (t.closeAt i r).IsClosed j ↔ j = i ∨ t.IsClosed j :=
  isClosed_setRule h.head_lt_size rfl

include hr

theorem rule_closeAt {j : RuleId} {q : Rule} (hq : a.rules[j]? = some q) :
    (t.closeAt i r).rules[j]? = some q ∨ (t.closeAt i r).rules[j]? =
      some (q.bound (q.metadata.setParent ((t.closeAt i r).parentMetadata q))) := by
  have hparent : t.IsClosed j ∨ j ∈ i :: queue →
      (t.closeAt i r).parentMetadata q = t.parentMetadata q := fun hj =>
    parentMetadata_setRule h.head_lt_size fun hp => h.not_isParent_head hj ⟨q, hq, hp⟩
  unfold closeAt at hparent ⊢
  rw [getElem?_setRule h.head_lt_size]
  by_cases hj : j = i
  · subst hj
    rw [hr, Option.some.injEq] at hq
    subst hq
    rw [if_pos rfl, hparent (Or.inr (List.mem_cons_self ..))]
    exact Or.inr rfl
  · rw [if_neg hj]
    refine (h.rule hq).imp_right fun hbound => ?_
    rwa [hparent (Or.inl ⟨_, hbound, rfl⟩)]

include ha

theorem reached_closeAt {p j : RuleId} (hp : a.IsParent p j) :
    (t.closeAt i r).IsClosed p ↔ (t.closeAt i r).IsClosed j ∨ j ∈ queue ++ r.children := by
  have hchild : j ∈ r.children ↔ a.IsParent i j := ha.children hr
  rw [h.isClosed_closeAt, h.isClosed_closeAt, List.mem_append, hchild]
  by_cases hpi : p = i
  · subst hpi
    simp [hp]
  · have hnot : ¬ a.IsParent i j := fun hq => hpi (hp.unique hq)
    simp only [hpi, hnot, h.reached hp, List.mem_cons, false_or, or_false]
    rw [← or_assoc, or_comm (a := t.IsClosed j)]

theorem queued_closeAt {j : RuleId} (hj : j ∈ queue ++ r.children) :
    j < a.size ∧ ¬ (t.closeAt i r).IsClosed j := by
  rw [h.isClosed_closeAt]
  rcases List.mem_append.1 hj with hj | hj
  · obtain ⟨hlt, hopen⟩ := h.queued j (List.mem_cons_of_mem _ hj)
    exact ⟨hlt, fun h' => h'.elim (fun heq => (List.nodup_cons.1 h.nodup).1 (heq ▸ hj)) hopen⟩
  · have hij : a.IsParent i j := (ha.children hr).1 hj
    have hlt : j < a.size := by
      obtain ⟨q, hq, -⟩ := hij
      exact (Array.getElem?_eq_some_iff.1 hq).1
    refine ⟨hlt, ?_⟩
    rintro (rfl | hj')
    · exact h.not_isParent_head (Or.inr (List.mem_cons_self ..)) hij
    · exact h.not_isParent_head (Or.inl hj') hij

theorem count_closeAt : count + 1 = (t.closeAt i r).rules.countP Rule.closed := by
  obtain ⟨hsize, hget⟩ := Array.getElem?_eq_some_iff.1 (h.getElem?_open hr h.head_open)
  have hzero : t.rules[i].closed = false := by rw [hget]; exact ha.isOpen hr
  rw [h.count]
  simp only [closeAt, setRule, Array.setIfInBounds, hsize, dif_pos]
  rw [Array.countP_set]
  simp [hzero, Rule.bound]

/-- The head of the queue is closed, and its children join the queue. -/
theorem step : IsClosing a (t.closeAt i r) (queue ++ r.children) (count + 1) where
  frame := by
    show _ = { a with rules := _ }
    rw [h.frame]
    rfl
  size := by
    rw [← h.size]
    simp [closeAt, setRule, RuleSet.size]
  rule hq := h.rule_closeAt hr hq
  grounded {j} hj := by
    obtain rfl | hj := h.isClosed_closeAt.1 hj
    · exact ⟨_, fun p hp => h.grounded ((h.reached hp).2 (Or.inr (List.mem_cons_self ..)))⟩
    · exact h.grounded hj
  reached hp := h.reached_closeAt ha hr hp
  roots j hj := by
    rw [h.isClosed_closeAt, List.mem_append]
    rcases h.roots j hj with h | h
    · exact Or.inl (Or.inr h)
    · rcases List.mem_cons.1 h with h | h
      · exact Or.inl (Or.inl h)
      · exact Or.inr (Or.inl h)
  nodup := by
    refine List.nodup_append.2 ⟨(List.nodup_cons.1 h.nodup).2, ha.children_nodup hr, ?_⟩
    rintro j hj _ hk rfl
    exact h.not_isParent_head (Or.inr (List.mem_cons_of_mem _ hj)) ((ha.children hr).1 hk)
  queued j hj := h.queued_closeAt ha hr hj
  count := h.count_closeAt ha hr

end Step

/-! ### The whole walk -/

/-- The walk ends with an empty queue: the rules that are still open are at most as many as the
budget, and every step closes one. -/
theorem run (ha : a.IsTied Expr.IsFolded) (budget : Nat) {queue : List RuleId} {count : Nat}
    {t : RuleSet} (h : IsClosing a t queue count) (hbudget : a.size < budget + count) :
    ∃ n t', closeAll budget queue count t = (.ok n, t') ∧ IsClosing a t' [] n := by
  induction budget generalizing queue count t with
  | zero =>
      have hle : count ≤ t.size := h.count ▸ Array.countP_le_size
      rw [h.size] at hle
      omega
  | succ budget ih =>
      cases queue with
      | nil => exact ⟨count, t, rfl, h⟩
      | cons i queue =>
          obtain ⟨hlt, hopen⟩ := h.queued i (List.mem_cons_self ..)
          have hr : a.rules[i]? = some a.rules[i] := Array.getElem?_eq_getElem hlt
          rw [closeAll, h.getElem?_open hr hopen]
          simp only [Rule.close_of_isFolded (ha.isOpen hr) (ha.exprs hr)]
          exact ih (h.step ha hr) (by omega)

end IsClosing

theorem closeAll_isClosing (ha : a.IsTied Expr.IsFolded) :
    ∃ n t, closeAll (a.size + 1) a.roots 0 a = (.ok n, t) ∧ IsClosing a t [] n :=
  (isClosing_start ha).run ha (a.size + 1) (by omega)

/-! ## The rules that are closed -/

/-- All rules are closed if as many are as there are. -/
theorem isClosed_of_count (h : IsClosing a t [] count) (hcount : ¬ count < t.size) {i : RuleId}
    (hi : i < a.size) : t.IsClosed i := by
  have hall : t.rules.countP Rule.closed = t.rules.size :=
    Nat.le_antisymm Array.countP_le_size (h.count ▸ Nat.le_of_not_lt hcount)
  have hi : i < t.rules.size := by rw [← h.size] at hi; exact hi
  exact ⟨_, Array.getElem?_eq_getElem hi, Array.countP_eq_size.1 hall _ (Array.getElem_mem hi)⟩

end RuleSet

end RuleScan
