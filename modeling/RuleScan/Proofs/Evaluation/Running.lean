import RuleScan.Evaluation
import RuleScan.Proofs.Evaluation.Step

/-!
# How a rule runs

The evaluation of a rule as equations: what an action leaves to the actions behind it, what a
child rule adds to the matches and to the ids of those that did not match, and how the outcome
and the session of a rule follow from those of its conditions, variables, actions and children.

## Main results

* `runActions_ok_cons`, `runActions_error_cons` — one action, and those behind it.
* `runChildren_cons`, `after_runChildren_append` — one child rule, and those behind it.
* `evaluateRuleWithin_entered` — a rule runs in a frame of its own, one level further in.
* `Acts.after` — what a rule that matched leaves behind.
-/

namespace RuleScan

/-- The session in which a rule is evaluated: one level further in, in a frame of the rule. -/
def Session.entered (s : Session) (i : RuleId) (r : Rule) : Session :=
  { s with depth := s.depth + 1, scope := s.scope.push i r.vars.entries }

/-- The session after the rule: back on the level before, without its frame. -/
def Session.left (s : Session) : Session :=
  { s with depth := s.depth - 1, scope := s.scope.pop }

namespace Environment

open Step

variable {env : Environment} {eval : Expr → Step Value}
  {child : RuleId → Step (Option Match)} {limit budget : Nat} {i : RuleId} {r : Rule}
  {s t u : Session}

/-! ## Actions -/

theorem runActions_ok_cons {a : RuleAction} {v : Value} (h : eval a.expr s = .ok v t)
    (rest : List RuleAction) :
    runActions env eval (a :: rest) s =
      if a.mode = .stop then .ok () t else runActions env eval rest t := by
  rw [runActions, bind_of_ok (attempt_ok h)]
  dsimp only
  split <;> rfl

/-- The session in which an action has failed, with the failure recorded unless it is ignored. -/
def noted (env : Environment) (a : RuleAction) (e : Error) (s : Session) : Session :=
  if a.mode = .ignore ∧ e.isInternal = false then s else (recordCurrent env.rules e).after s

theorem runActions_error_cons {a : RuleAction} {e : Error} (h : eval a.expr s = .error e t)
    (rest : List RuleAction) :
    runActions env eval (a :: rest) s = runActions env eval rest (env.noted a e t) := by
  rw [runActions, bind_of_ok (attempt_error h), noted]
  dsimp only
  split <;> rfl

/-- The actions of a rule never make it fail. -/
theorem runActions_ok (env : Environment) (eval : Expr → Step Value) (as : List RuleAction)
    (s : Session) :
    ∃ s', runActions env eval as s = .ok () s' := by
  induction as generalizing s with
  | nil => exact ⟨s, rfl⟩
  | cons a rest ih =>
      unfold runActions
      rw [bind_of_ok (attempt_eq _ _)]
      cases (eval a.expr).outcome s with
      | ok v =>
          dsimp only
          split
          · exact ⟨_, rfl⟩
          · exact ih _
      | error e =>
          dsimp only
          split
          · exact ih _
          · exact ih _

/-! ## Children -/

/-- The children of a rule never make it fail. -/
theorem runChildren_ok (env : Environment) (child : RuleId → Step (Option Match))
    (is : List RuleId) (s : Session) :
    ∃ found s', runChildren env child is s = .ok found s' := by
  induction is generalizing s with
  | nil => exact ⟨_, s, rfl⟩
  | cons i rest ih =>
      unfold runChildren
      rw [bind_of_ok (attempt_eq _ _)]
      match (child i).outcome s with
      | .ok (some m) =>
          obtain ⟨found, s', h⟩ := ih ((child i).after s)
          exact ⟨_, s', bind_of_ok h _⟩
      | .ok none =>
          obtain ⟨found, s', h⟩ := ih ((child i).after s)
          exact ⟨_, s', bind_of_ok h _⟩
      | .error e =>
          dsimp only
          obtain ⟨found, s', h⟩ :=
            ih ((recordFailure env.rules (some i) e).after ((child i).after s))
          exact ⟨_, s', bind_of_ok h _⟩

/-- The session after a child rule, with its failure recorded if it failed. -/
def afterChild (env : Environment) (child : RuleId → Step (Option Match)) (c : RuleId)
    (s : Session) : Session :=
  match (child c).outcome s with
  | .ok _ => (child c).after s
  | .error e => (recordFailure env.rules (some c) e).after ((child c).after s)

/-- The match of a child rule, if there is one. -/
def matchOf : Except Error (Option Match) → Option Match
  | .ok found => found
  | .error _ => none

/-- What a child rule adds to the matches and to the ids of those that did not match. -/
def sortedIn (env : Environment) (c : RuleId) (found : Option Match)
    (rest : List Match × List String) : List Match × List String :=
  match found with
  | some m => (m :: rest.1, rest.2)
  | none => (rest.1, (env.rules.idAt? c).getD "" :: rest.2)

theorem runChildren_cons {c : RuleId} {rest : List RuleId} {found : List Match × List String}
    (h : runChildren env child rest (env.afterChild child c s) = .ok found t) :
    runChildren env child (c :: rest) s =
      .ok (env.sortedIn c (matchOf ((child c).outcome s)) found) t := by
  rw [runChildren, bind_of_ok (attempt_eq _ _)]
  unfold afterChild at h
  cases ho : (child c).outcome s with
  | ok o =>
      rw [ho] at h
      cases o with
      | none => exact bind_of_ok h _
      | some m => exact bind_of_ok h _
  | error e =>
      rw [ho] at h
      exact bind_of_ok h _

theorem after_runChildren_cons (c : RuleId) (rest : List RuleId) (s : Session) :
    (runChildren env child (c :: rest)).after s =
      (runChildren env child rest).after (env.afterChild child c s) := by
  obtain ⟨found, t, h⟩ := runChildren_ok env child rest (env.afterChild child c s)
  rw [after_of_ok (runChildren_cons h), after_of_ok h]

theorem after_runChildren_append (cs ds : List RuleId) (s : Session) :
    (runChildren env child (cs ++ ds)).after s =
      (runChildren env child ds).after ((runChildren env child cs).after s) := by
  induction cs generalizing s with
  | nil => rfl
  | cons c rest ih => rw [List.cons_append, after_runChildren_cons, after_runChildren_cons, ih]

/-! ## Rules -/

/-- A rule that matched has the values that its variables had before its actions ran. -/
theorem runMatched_of_ok {found : List Match × List String}
    (hchildren : runChildren env child r.children ((runActions env eval r.actions).after s) =
      .ok found t) :
    runMatched env eval child i r s =
      .ok (.node i r.id s.scope.snapshot found.1 found.2) t := by
  obtain ⟨acted, hactions⟩ := runActions_ok env eval r.actions s
  rw [after_of_ok hactions] at hchildren
  show (runActions env eval r.actions >>= _) s = _
  rw [bind_of_ok hactions, bind_of_ok hchildren]
  rfl

theorem runMatched_ok (env : Environment) (eval : Expr → Step Value)
    (child : RuleId → Step (Option Match)) (i : RuleId) (r : Rule) (s : Session) :
    ∃ children unmatched s', runMatched env eval child i r s =
      .ok (.node i r.id s.scope.snapshot children unmatched) s' := by
  obtain ⟨⟨children, unmatched⟩, t, hchildren⟩ :=
    runChildren_ok env child r.children ((runActions env eval r.actions).after s)
  exact ⟨children, unmatched, t, runMatched_of_ok hchildren⟩

/-- A step in a frame of its own has the outcome that it has in the scope with that frame. -/
theorem outcome_inFrame {α : Type} (i : RuleId) (r : Rule) (t : Step α) (s : Session) :
    (inFrame i r t).outcome s = t.outcome { s with scope := s.scope.push i r.vars.entries } := by
  unfold inFrame
  conv => lhs; unfold outcome
  rw [run_changed, bind_of_ok (attempt_eq _ _), run_changed]
  cases t.outcome { s with scope := s.scope.push i r.vars.entries } <;> rfl

/-- The outcome of a rule is that of its body, and so is the session but for the frame and the
level. -/
theorem evaluateRuleWithin_entered (budget : Nat) (hi : env.rules.rules[i]? = some r)
    (hroom : s.depth < limit) :
    (env.evaluateRuleWithin limit (budget + 1) i).outcome s =
        (runRule env (env.evaluateWithin limit budget) (env.evaluateRuleWithin limit budget) i
          r).outcome (s.entered i r) ∧
      (env.evaluateRuleWithin limit (budget + 1) i).after s =
        ((runRule env (env.evaluateWithin limit budget) (env.evaluateRuleWithin limit budget) i
          r).after (s.entered i r)).left := by
  rw [evaluateRuleWithin_succ env limit budget hi]
  generalize runRule env _ _ i r = t
  have hframe : inFrame i r t { s with depth := s.depth + 1 } =
      match t.outcome (s.entered i r) with
      | .ok a => .ok a { t.after (s.entered i r) with scope := (t.after (s.entered i r)).scope.pop }
      | .error e =>
        .error e { t.after (s.entered i r) with scope := (t.after (s.entered i r)).scope.pop } := by
    unfold inFrame
    rw [run_changed, bind_of_ok (attempt_eq _ _), run_changed]
    show ofExcept (t.outcome (s.entered i r)) _ = _
    cases t.outcome (s.entered i r) <;> rfl
  unfold outcome after nested
  rw [if_neg (Nat.not_le.2 hroom), hframe]
  unfold outcome after
  cases t (s.entered i r) <;> exact ⟨rfl, rfl⟩

/-- The conditions of a rule hold and its variables have values.  Its actions start from the
second session. -/
structure Acts (env : Environment) (limit budget : Nat) (i : RuleId) (r : Rule)
    (s u : Session) : Prop where
  rule : env.rules.rules[i]? = some r
  room : s.depth < limit
  forced : ∃ t, allHold (env.evaluateWithin limit budget) r.conditions (s.entered i r) =
    .ok true t ∧ forceAll (env.evaluateWithin limit budget) r.vars.keys t = .ok () u

/-- A rule that acts matches: its children are sorted after its actions. -/
theorem Acts.runRule (h : env.Acts limit budget i r s u) {found : List Match × List String}
    (hchildren : runChildren env (env.evaluateRuleWithin limit budget) r.children
      ((runActions env (env.evaluateWithin limit budget) r.actions).after u) = .ok found t) :
    runRule env (env.evaluateWithin limit budget) (env.evaluateRuleWithin limit budget) i r
      (s.entered i r) = .ok (some (.node i r.id u.scope.snapshot found.1 found.2)) t := by
  obtain ⟨w, hheld, hforced⟩ := h.forced
  unfold Environment.runRule
  rw [bind_of_ok hheld]
  show (forceAll (env.evaluateWithin limit budget) r.vars.keys >>= _) w = _
  rw [bind_of_ok hforced, bind_of_ok (runMatched_of_ok hchildren)]
  rfl

/-- A rule that acts leaves what its children leave. -/
theorem Acts.after (h : env.Acts limit budget i r s u) :
    (env.evaluateRuleWithin limit (budget + 1) i).after s =
      ((runChildren env (env.evaluateRuleWithin limit budget) r.children).after
        ((runActions env (env.evaluateWithin limit budget) r.actions).after u)).left := by
  obtain ⟨found, t, hchildren⟩ := runChildren_ok env (env.evaluateRuleWithin limit budget)
    r.children ((runActions env (env.evaluateWithin limit budget) r.actions).after u)
  rw [(evaluateRuleWithin_entered budget h.rule h.room).2, after_of_ok (h.runRule hchildren),
    after_of_ok hchildren]

end Environment

end RuleScan
