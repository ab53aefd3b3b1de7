import RuleScan.Proofs.Evaluation.Composition

/-!
# Invariants of evaluation

Evaluating an expression and evaluating a rule are one recursion: a node evaluates the
nodes inside it, a variable its expression, a rule its expressions and its child rules.
Four things happen on the way that are undone later: a level is entered, a binding is in
progress, a frame is pushed, an attempt fails.

`Invariant env R` collects what a relation `R` between sessions must satisfy so that `R`
holds between the session before any evaluation and the session after it.  The recursion
is gone through once, in `Invariant.evaluateWithin` and `Invariant.evaluateRuleWithin`;
what is specific to a relation are the fields of the structure.

## Main results

* `maintains_resolveWith` — a name is looked up, or its variable is evaluated.
* `Invariant.evaluate`, `Invariant.resolve`, `Invariant.evaluateRule` — evaluation as a
  whole, whatever its outcome.
-/

namespace RuleScan.Environment

open Step

/-- A name is looked up in frames or among the globals, or its variable is evaluated. -/
theorem maintains_resolveWith {P : Session → Prop} {eval : Expr → Step Value} {name : String}
    (hsettle : ∀ s level e, P s → name.toList.head? ≠ some '$' →
      s.scope.lookup name = some (level, .unevaluated e) →
      P ((settle eval level name e).after s)) :
    Maintains P (resolveWith eval name) := by
  unfold resolveWith
  split
  · exact maintains_global name
  · next hname =>
    intro s hs
    show P (after (if s.scope.isEmpty then _ else _) s)
    split
    · exact hs
    · cases hl : s.scope.lookup name with
      | none => exact maintains_global name s hs
      | some found =>
          obtain ⟨level, b⟩ := found
          cases b with
          | unevaluated e => exact hsettle s level e hs hname hl
          | inProgress => exact hs
          | resolved v => exact hs

/-! ## Whole evaluations -/

/--
A relation between the session before an evaluation and the session after it.  Besides
being composable it must survive everything that evaluation undoes: whatever happened
between entering a level, starting a variable or pushing a frame on the one hand and the
corresponding end on the other, the two outer sessions are related.
-/
structure Invariant (env : Environment) (R : Session → Session → Prop) : Prop where
  refl : ∀ s, R s s
  trans : ∀ {s t u}, R s t → R t u → R s u
  nested : ∀ {s t : Session}, R { s with depth := s.depth + 1 } t →
    R s { t with depth := t.depth - 1 }
  settled : ∀ {s t : Session} {name level e b},
    s.scope.lookup name = some (level, .unevaluated e) →
    R { s with scope := s.scope.replaceAt level name .inProgress } t →
    (b = .unevaluated e ∨ ∃ v, b = .resolved v) →
    R s { t with scope := t.scope.replaceAt level name b }
  framed : ∀ {s t : Session} {i vars}, R { s with scope := s.scope.push i vars } t →
    R s { t with scope := t.scope.pop }
  recorded : ∀ (s : Session) (failure : Failure),
    R s (s.withEffects fun e => { e with failures := e.failures ++ [failure] })
  called : ∀ {name op}, env.operators.get? name = some op →
    ∀ (host : Host) (args : List Value) (m : Register),
      (∀ x s, R s ((host.resolve x).after s)) → ∀ s, R s ((op.run host args m).after s)

namespace Invariant

variable {env : Environment} {R : Session → Session → Prop} {α : Type}

/-- A step that relates its two ends keeps everything that is related to an earlier
session. -/
theorem maintains (hR : Invariant env R) {t : Step α} (ht : ∀ s, R s (t.after s))
    (origin : Session) : Maintains (R origin) t :=
  fun s hs => hR.trans hs (ht s)

private theorem relates (hR : Invariant env R) {t : Step α}
    (ht : ∀ origin, Maintains (R origin) t) (s : Session) : R s (t.after s) :=
  ht s s (hR.refl s)

theorem settle (hR : Invariant env R) {eval : Expr → Step Value}
    (heval : ∀ e s, R s ((eval e).after s)) {s : Session} {name : String} {level : Nat}
    {e : Expr} (hl : s.scope.lookup name = some (level, .unevaluated e)) :
    R s ((settle eval level name e).after s) := by
  have h := heval e { s with scope := s.scope.replaceAt level name .inProgress }
  unfold Environment.settle
  unfold after at h ⊢
  rw [run_changed, bind_of_ok (attempt_eq _ _)]
  unfold outcome after
  cases hr : eval e { s with scope := s.scope.replaceAt level name .inProgress } with
  | ok v s' =>
      rw [hr] at h
      exact hR.settled hl h (Or.inr ⟨v, rfl⟩)
  | error cause s' =>
      rw [hr] at h
      exact hR.settled hl h (Or.inl rfl)

theorem resolveWith (hR : Invariant env R) {eval : Expr → Step Value}
    (heval : ∀ e s, R s ((eval e).after s)) (name : String) (s : Session) :
    R s ((resolveWith eval name).after s) :=
  hR.relates
    (fun _ => maintains_resolveWith fun _ _ _ hs _ hl => hR.trans hs (hR.settle heval hl)) s

/-- The induction is on the budget: a node is evaluated with the evaluator of the next
level, for which the relation is known. -/
theorem evaluateWithin (hR : Invariant env R) (limit budget : Nat) (e : Expr) (s : Session) :
    R s ((env.evaluateWithin limit budget e).after s) := by
  induction budget generalizing e s with
  | zero => exact hR.refl s
  | succ budget ih =>
      have hname : ∀ name origin,
          Maintains (R origin) (Environment.resolveWith (env.evaluateWithin limit budget) name) :=
        fun name => hR.maintains (hR.resolveWith ih name)
      refine hR.relates (fun origin => maintains_nested fun s hs => hR.trans hs ?_) s
      refine hR.nested (hR.relates (fun origin => ?_) _)
      refine (composable_maintains _).evaluateNode (fun e _ => hR.maintains (ih e) origin)
        (fun name _ => hname name origin) fun name args m values _ => ?_
      refine (composable_maintains _).call (fun op hop args m => ?_) values m
      exact hR.maintains (hR.called hop _ args m (hR.resolveWith ih)) origin

theorem recordFailure (hR : Invariant env R) (rule : Option RuleId) (e : Error) (s : Session) :
    R s ((recordFailure env.rules rule e).after s) :=
  hR.recorded s _

theorem recordCurrent (hR : Invariant env R) (e : Error) (s : Session) :
    R s ((recordCurrent env.rules e).after s) :=
  hR.recorded s _

theorem inFrame (hR : Invariant env R) {t : Step α} (ht : ∀ s, R s (t.after s)) (i : RuleId)
    (r : Rule) (s : Session) : R s ((inFrame i r t).after s) := by
  have h := hR.framed (ht { s with scope := s.scope.push i r.vars.entries })
  unfold Environment.inFrame
  unfold after at h ⊢
  rw [run_changed, bind_of_ok (attempt_eq _ _), run_changed]
  unfold outcome after
  cases hr : t { s with scope := s.scope.push i r.vars.entries } with
  | ok a s' =>
      rw [hr] at h
      exact h
  | error e s' =>
      rw [hr] at h
      exact h

theorem evaluateRuleWithin (hR : Invariant env R) (limit budget : Nat) (i : RuleId)
    (s : Session) : R s ((env.evaluateRuleWithin limit budget i).after s) := by
  induction budget generalizing i s with
  | zero => exact hR.refl s
  | succ budget ih =>
      cases hi : env.rules.rules[i]? with
      | none =>
          simp only [Environment.evaluateRuleWithin, hi]
          exact hR.refl s
      | some r =>
          rw [evaluateRuleWithin_succ env limit budget hi]
          refine hR.relates (fun origin => maintains_nested fun s hs => hR.trans hs ?_) s
          refine hR.nested (hR.inFrame (hR.relates fun origin => ?_) i r _)
          have heval : ∀ e, Maintains (R origin) (env.evaluateWithin limit budget e) :=
            fun e => hR.maintains (hR.evaluateWithin limit budget e) origin
          exact (composable_maintains _).runRule i (fun e _ => heval e)
            (fun name => hR.maintains
              (hR.resolveWith (hR.evaluateWithin limit budget) name) origin)
            (fun a _ => heval a.expr) (fun i _ => hR.maintains (ih i) origin)
            (fun e => hR.maintains (hR.recordCurrent e) origin)
            fun i e => hR.maintains (hR.recordFailure (some i) e) origin

theorem evaluate (hR : Invariant env R) (limit : Nat) (e : Expr) (s : Session) :
    R s ((env.evaluate limit e).after s) :=
  hR.evaluateWithin limit (s.room limit) e s

theorem resolve (hR : Invariant env R) (limit : Nat) (name : String) (s : Session) :
    R s ((env.resolve limit name).after s) :=
  hR.resolveWith (hR.evaluateWithin limit (s.room limit)) name s

theorem evaluateRule (hR : Invariant env R) (limit : Nat) (i : RuleId) (s : Session) :
    R s ((env.evaluateRule limit i).after s) :=
  hR.evaluateRuleWithin limit (s.room limit) i s

end Invariant

end RuleScan.Environment
