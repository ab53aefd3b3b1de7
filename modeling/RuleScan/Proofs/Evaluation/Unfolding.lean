import RuleScan.Proofs.Evaluation.Accounting
import RuleScan.Proofs.Reading.Yields

/-!
# How an evaluation unfolds

Evaluating a rule unfolds into events, one for each part of the rule that is evaluated.  An event
that belongs to a child unfolds again, from the session to which the events before it have led.  So
every instance of a rule that is evaluated below a root has a place of its own
(`Environment.InstanceAt`), and what holds at the root can be followed down to it.

The events of an instance come in two runs: first those of its conditions, its variables and its
actions, then those of its children.  The second run is empty unless all variables were evaluated.

## Main results

* `Happens.split`, `Happens.maintains` — events in two runs, and what each of them maintains.
* `Happens.forceAll` — when no event of a variable fails, all variables are forced.
* `Course.split` — the events of an instance itself, and those of its children.
* `exists_unfolds` — an instance that has a level left unfolds.
* `Course.exists_condition`, `InstanceAt.exists_child` — the first condition of a rule is evaluated
  by all its instances, and the children by those that match.
-/

namespace RuleScan

/-! ## Parts of a rule -/

/-- The parts of a rule apart from its children. -/
def Rule.ownParts (r : Rule) : List Part :=
  r.conditions.map .condition ++ r.vars.keys.map .var ++ r.actions.map .action

/-- The expression that a part of a rule evaluates, if it evaluates one. -/
def Part.expr? (r : Rule) : Part → Option Expr
  | .condition e => some e
  | .var name => r.vars.get? name
  | .action a => some a.expr
  | .child _ => none

variable {r : Rule} {p : Part} {xs : List Event}

theorem Rule.mem_ownParts : p ∈ r.ownParts ↔ (∃ e ∈ r.conditions, .condition e = p) ∨
    (∃ name ∈ r.vars.keys, .var name = p) ∨ ∃ a ∈ r.actions, .action a = p := by
  simp [ownParts]

theorem Rule.ne_child_of_mem_ownParts (h : p ∈ r.ownParts) (c : RuleId) : p ≠ .child c := by
  rintro rfl
  obtain ⟨_, _, ⟨⟩⟩ | ⟨_, _, ⟨⟩⟩ | ⟨_, _, ⟨⟩⟩ := mem_ownParts.1 h

/-- An event of a child stands behind the events of the rule itself. -/
theorem Rule.exists_append_of_child {own visited before behind : List Event} {x : Event}
    {c : RuleId} (hown : ∀ y ∈ own, y.part ∈ r.ownParts)
    (h : before ++ x :: behind = own ++ visited) (hx : x.part = .child c) :
    ∃ earlier, before = own ++ earlier ∧ visited = earlier ++ x :: behind := by
  obtain ⟨later, rfl, hlater⟩ | ⟨earlier, rfl, hearlier⟩ := List.append_eq_append_iff.1 h
  · cases later with
    | nil => exact ⟨[], by simp, hlater.symm⟩
    | cons y later =>
        cases hlater
        exact absurd hx (ne_child_of_mem_ownParts (hown x (by simp)) c)
  · exact ⟨earlier, rfl, hearlier⟩

/-- What a part of the rule evaluates is an expression of the rule. -/
theorem Rule.mem_exprs_of_mem_ownParts (h : p ∈ r.ownParts) {e : Expr} (he : p.expr? r = some e) :
    e ∈ r.exprs := by
  rw [mem_exprs]
  obtain ⟨c, hc, rfl⟩ | ⟨name, -, rfl⟩ | ⟨a, ha, rfl⟩ := mem_ownParts.1 h
  · cases he
    exact .inr (.inl hc)
  · exact .inl (List.mem_map.2 ⟨_, Table.mem_of_get? he, rfl⟩)
  · cases he
    exact .inr (.inr ⟨a, ha, rfl⟩)

theorem Covers.part_mem {ends : Event → Prop} {parts : List Part} (h : Covers ends parts xs) :
    ∀ x ∈ xs, x.part ∈ parts := by
  induction h with
  | nil => simp
  | more _ _ ih =>
      refine List.forall_mem_cons.2 ⟨List.mem_cons_self, fun x hx => ?_⟩
      exact List.mem_cons_of_mem _ (ih x hx)
  | last _ => simp

theorem Passes.part_mem {ends : Event → Prop} {parts : List Part} (h : Passes ends parts xs) :
    ∀ x ∈ xs, x.part ∈ parts :=
  fun _ hx => h.parts ▸ List.mem_map_of_mem hx

/-- An instance evaluates parts of its own, and after them its children if it evaluates any.  Then
all its variables were evaluated before. -/
theorem Course.split {i : RuleId} {out : Except Error (Option Match)} (h : Course i r xs out) :
    ∃ own visited, xs = own ++ visited ∧ (∀ x ∈ own, x.part ∈ r.ownParts) ∧
      (visited = [] ∨ visited.map Event.part = r.children.map .child ∧
        ∃ held known acted, own = held ++ known ++ acted ∧
          Passes Event.Fails (r.vars.keys.map .var) known) := by
  have hcondition : ∀ {p}, p ∈ r.conditions.map .condition → p ∈ r.ownParts := fun hp =>
    List.mem_append_left _ (List.mem_append_left _ hp)
  have hvar : ∀ {p}, p ∈ r.vars.keys.map .var → p ∈ r.ownParts := fun hp =>
    List.mem_append_left _ (List.mem_append_right _ hp)
  have haction : ∀ {p}, p ∈ r.actions.map .action → p ∈ r.ownParts := fun hp =>
    List.mem_append_right _ hp
  cases h with
  | rejected hcovers _ _ | conditionFails hcovers _ _ =>
      exact ⟨xs, [], (List.append_nil _).symm, fun x hx => hcondition (hcovers.part_mem x hx),
        .inl rfl⟩
  | @variableFails held tried _ _ hpasses hcovers _ _ =>
      refine ⟨held ++ tried, [], (List.append_nil _).symm, fun x hx => ?_, .inl rfl⟩
      rcases List.mem_append.1 hx with hx | hx
      · exact hcondition (hpasses.part_mem x hx)
      · exact hvar (hcovers.part_mem x hx)
  | @matched held known acted visited _ hpasses hvalues hacts hparts _ _ _ =>
      refine ⟨held ++ known ++ acted, visited, (List.append_assoc _ _ _).symm, fun x hx => ?_,
        .inr ⟨hparts, held, known, acted, rfl, hvalues⟩⟩
      rcases List.mem_append.1 hx with hx | hx
      · rcases List.mem_append.1 hx with hx | hx
        · exact hcondition (hpasses.part_mem x hx)
        · exact hvar (hvalues.part_mem x hx)
      · exact haction (hacts.part_mem x hx)

theorem Covers.exists_head {ends : Event → Prop} {parts : List Part}
    (h : Covers ends (p :: parts) xs) : ∃ x ∈ xs, x.part = p := by
  cases h with
  | more _ _ | last _ => exact ⟨_, List.mem_cons_self, rfl⟩

theorem Passes.exists_of_mem {ends : Event → Prop} {parts : List Part} (h : Passes ends parts xs)
    (hp : p ∈ parts) : ∃ x ∈ xs, x.part = p :=
  List.mem_map.1 (h.parts.symm ▸ hp)

/-- Whatever comes of an instance, it evaluates the first condition of its rule. -/
theorem Course.exists_condition {i : RuleId} {out : Except Error (Option Match)}
    (h : Course i r xs out) {e : Expr} {rest : List Expr} (hr : r.conditions = e :: rest) :
    ∃ x ∈ xs, x.part = .condition e := by
  have hmem : Part.condition e ∈ r.conditions.map .condition := by simp [hr]
  cases h with
  | rejected hcovers _ _ | conditionFails hcovers _ _ =>
      rw [hr, List.map_cons] at hcovers
      exact hcovers.exists_head
  | variableFails hpasses _ _ _ | matched hpasses _ _ _ _ _ _ =>
      obtain ⟨x, hx, hpart⟩ := hpasses.exists_of_mem hmem
      exact ⟨x, by simp [hx], hpart⟩

namespace Environment

open Step

variable {env : Environment} {limit : Nat} {i : RuleId} {s t u : Session} {ys : List Event}

/-! ## Runs of events -/

theorem Happens.split (h : env.Happens limit r s (xs ++ ys) u) :
    ∃ t, env.Happens limit r s xs t ∧ env.Happens limit r t ys u := by
  induction xs generalizing s with
  | nil => exact ⟨s, .nil, h⟩
  | cons x xs ih =>
      cases h with
      | cons houtcome hinside hrest =>
          obtain ⟨t, hxs, hys⟩ := ih hrest
          exact ⟨t, .cons houtcome hinside hxs, hys⟩

/-- A condition that every part maintains holds wherever one of the parts is evaluated. -/
theorem Happens.maintains {K : Session → Prop} (h : env.Happens limit r s xs t) (hs : K s)
    (hstep : ∀ x ∈ xs, ∀ s, K s →
      K (((env.evaluatePart limit x.part).after s).recording (x.recorded env.rules r))) :
    K t ∧ ∀ x ∈ xs, ∃ u, K u ∧ (env.evaluatePart limit x.part).outcome u = x.outcome := by
  induction h with
  | nil => exact ⟨hs, by simp⟩
  | @cons s t x xs houtcome _ _ ih =>
      rw [List.forall_mem_cons] at hstep
      obtain ⟨ht, hrest⟩ := ih (hstep.1 s hs) hstep.2
      exact ⟨ht, List.forall_mem_cons.2 ⟨⟨s, hs, houtcome⟩, hrest⟩⟩

/-- When none of the events fails, the variables have been forced. -/
theorem Happens.forceAll (hops : env.operators.Respects Session.Follows) {names : List String}
    (h : env.Happens limit r s xs t) (hparts : xs.map Event.part = names.map .var)
    (hgoes : ∀ x ∈ xs, ¬ x.Fails) :
    Environment.forceAll (env.evaluateWithin limit (s.room limit)) names s = .ok () t := by
  induction h generalizing names with
  | nil =>
      rw [List.map_nil, eq_comm, List.map_eq_nil_iff] at hparts
      rw [hparts]
      rfl
  | @cons s t x xs houtcome _ _ ih =>
      cases names with
      | nil => simp at hparts
      | cons name rest =>
          rw [List.map_cons, List.map_cons, List.cons.injEq] at hparts
          rw [List.forall_mem_cons] at hgoes
          obtain ⟨hpart, hparts⟩ := hparts
          have hrecorded : x.recorded env.rules r = [] := by simp [Event.recorded, hpart]
          rw [hrecorded, Session.recording_nil, hpart] at ih
          rw [hpart] at houtcome
          cases hr : env.resolve limit name s with
          | error e u =>
              have hrun : env.evaluatePart limit (.var name) s = .error e u := bind_of_error hr _
              rw [outcome_of_error hrun] at houtcome
              exact absurd ⟨e, houtcome.symm⟩ hgoes.1
          | ok v u =>
              have hrun : env.evaluatePart limit (.var name) s = .ok (.value v) u := bind_of_ok hr _
              have hfollows := (follows_invariant hops).resolve limit name s
              rw [after_of_ok hrun] at ih
              rw [after_of_ok hr] at hfollows
              have hroom : u.room limit = s.room limit := by
                rw [Session.room, Session.room, hfollows.depth]
              have hvalue : resolveWith (env.evaluateWithin limit (s.room limit)) name s =
                  .ok v u := hr
              rw [Environment.forceAll, bind_of_ok hvalue, ← hroom]
              exact ih hparts hgoes.2

/-! ## Instances -/

/-- The rule, evaluated from the session, unfolds into these events. -/
structure Unfolds (env : Environment) (limit : Nat) (i : RuleId) (r : Rule) (s : Session)
    (xs : List Event) : Prop where
  rule : env.rules.rules[i]? = some r
  room : s.depth < limit
  happens : ∃ t, env.Happens limit r (s.entered i r) xs t ∧
    (env.evaluateRule limit i).after s = t.left
  course : Course i r xs ((env.evaluateRule limit i).outcome s)

/-- When the rule `root` is evaluated from the session `start`, an instance of the rule `i` is
evaluated from the session `s`. -/
inductive InstanceAt (env : Environment) (limit : Nat) (root : RuleId) (start : Session) :
    RuleId → Session → Prop where
  | root : InstanceAt env limit root start root start
  | child {i c : RuleId} {r : Rule} {s t : Session} {before behind : List Event} {x : Event} :
      InstanceAt env limit root start i s →
      env.Unfolds limit i r s (before ++ x :: behind) →
      env.Happens limit r (s.entered i r) before t → x.part = .child c →
      InstanceAt env limit root start c t

/-- An instance that has a level left unfolds. -/
theorem exists_unfolds (hops : env.operators.Respects Session.Follows)
    (hi : env.rules.rules[i]? = some r) (hroom : s.depth < limit) :
    ∃ xs, env.Unfolds limit i r s xs := by
  obtain ⟨budget, hbudget⟩ : ∃ budget, s.room limit = budget + 1 :=
    Nat.exists_eq_add_one.2 (Nat.sub_pos_of_lt hroom)
  have hinside : Inside limit budget i (s.entered i r) := by
    refine ⟨?_, rfl⟩
    show s.depth + 1 + budget = limit
    unfold Session.room at hbudget
    omega
  obtain ⟨xs, t, out, hxs, hcourse, houtcome, hafter⟩ := runRule_events hops hi hinside
  obtain ⟨houter, hleft⟩ := evaluateRuleWithin_entered budget hi hroom
  rw [houtcome] at houter
  rw [hafter] at hleft
  refine ⟨xs, hi, hroom, ⟨t, hxs, ?_⟩, ?_⟩
  · rwa [after, evaluateRule, hbudget]
  · rwa [outcome, evaluateRule, hbudget, ← outcome, houter]

/-- When an instance matches, there is an instance of each of its children below it. -/
theorem InstanceAt.exists_child {root c : RuleId} {start : Session} {m : Match}
    (h : InstanceAt env limit root start i s) (hunfolds : env.Unfolds limit i r s xs)
    (hm : (env.evaluateRule limit i).outcome s = .ok (some m)) (hc : c ∈ r.children) :
    ∃ t, InstanceAt env limit root start c t := by
  have hcourse := hunfolds.course
  rw [hm] at hcourse
  cases hcourse with
  | @matched held known acted visited _ _ _ _ hparts _ _ _ =>
      have hmem : Part.child c ∈ visited.map Event.part :=
        hparts.symm ▸ List.mem_map_of_mem hc
      obtain ⟨x, hx, hpart⟩ := List.mem_map.1 hmem
      obtain ⟨earlier, later, rfl⟩ := List.append_of_mem hx
      have hsplit : held ++ known ++ (acted ++ (earlier ++ x :: later)) =
          (held ++ known ++ (acted ++ earlier)) ++ x :: later := by simp
      rw [hsplit] at hunfolds
      obtain ⟨u, hhappens, -⟩ := hunfolds.happens
      obtain ⟨t, hbefore, -⟩ := hhappens.split
      exact ⟨t, .child h hunfolds hbefore hpart⟩

end Environment

end RuleScan
