import RuleScan.Proofs.Evaluation.Builtin
import RuleScan.Proofs.Evaluation.Invariant
import RuleScan.Proofs.Evaluation.Running

/-!
# Failures are recorded

The failures of actions and of child rules do not end an evaluation; they are recorded, in the
order in which they occur, and nothing that was recorded is taken back.  An action may say that
its failures are to be ignored.  Internal failures are recorded all the same.

What it takes for an action to be run is spelled out: the conditions of its rule held and the
variables have values (`Acts`), no earlier action stopped the others (`ActionFails`), and the
rule is the one that is evaluated or is below it (`Fails`).

## Main results

* `recalls_invariant` — an evaluation takes back no failure.
* `ActionFails.recorded` — an internal failure of an action is recorded, whatever its mode.
* `Fails.recorded` — so is one in a rule further down.
-/

namespace RuleScan

/-- The failures recorded by the first session are the first of those recorded by the second. -/
def Session.Recalls (s t : Session) : Prop := s.effects.failures <+: t.effects.failures

/-- The operator takes back no failure, as long as resolving a name takes none back. -/
def Operator.KeepsFailures (op : Operator) : Prop :=
  ∀ (host : Host) (args : List Value) (m : Register),
    (∀ name (s : Session), s.Recalls ((host.resolve name).after s)) →
      ∀ s : Session, s.Recalls ((op.run host args m).after s)

/-- None of the operators takes back a failure. -/
def Registry.KeepsFailures (ops : Registry) : Prop :=
  ∀ name op, ops.get? name = some op → op.KeepsFailures

theorem Registry.keepsFailures_builtins : builtins.KeepsFailures := by
  intro name op hop host args m _ s
  exact ⟨[], (List.append_nil _).trans (Builtin.failures_builtins hop host args m s).symm⟩

namespace Environment

open Step

variable {env : Environment} {eval : Expr → Step Value} {limit budget : Nat} {i : RuleId}
  {s t : Session} {a : RuleAction} {e : Error}

/-- Neither levels nor bindings nor frames have to do with failures. -/
theorem recalls_invariant (hops : env.operators.KeepsFailures) :
    Invariant env Session.Recalls where
  refl _ := List.prefix_rfl
  trans h h' := h.trans h'
  nested h := h
  settled _ h _ := h
  framed h := h
  recorded _ _ := List.prefix_append _ _
  called hop host args m hresolve s := hops _ _ hop host args m hresolve s

/-- The failure was recorded. -/
def Noted (e : Error) (s : Session) : Prop := ∃ f ∈ s.effects.failures, f.error = e

theorem Noted.recalls (h : Noted e s) (hst : s.Recalls t) : Noted e t := by
  obtain ⟨f, hf, he⟩ := h
  exact ⟨f, hst.subset hf, he⟩

/-- What was noted stays noted. -/
theorem maintains_noted {α : Type} {t : Step α} (ht : ∀ s : Session, s.Recalls (t.after s)) :
    Maintains (Noted e) t :=
  fun s hs => hs.recalls (ht s)

theorem noted_recordFailure (rules : RuleSet) (rule : Option RuleId) (e : Error) (s : Session) :
    Noted e ((recordFailure rules rule e).after s) :=
  ⟨⟨rule.bind rules.idAt?, e⟩, List.mem_append_right _ (List.mem_singleton_self _), rfl⟩

/-! ## Actions -/

/-- Of these actions, one is run and fails. -/
inductive ActionFails (env : Environment) (eval : Expr → Step Value) :
    List RuleAction → Session → RuleAction → Error → Prop
  | here {a : RuleAction} {rest : List RuleAction} {s t : Session} {e : Error}
      (h : eval a.expr s = .error e t) : ActionFails env eval (a :: rest) s a e
  | past {a b : RuleAction} {rest : List RuleAction} {s t : Session} {v : Value} {e : Error}
      (hb : eval b.expr s = .ok v t) (hgo : b.mode ≠ .stop)
      (h : ActionFails env eval rest t a e) : ActionFails env eval (b :: rest) s a e
  | pastFailure {a b : RuleAction} {rest : List RuleAction} {s t : Session} {cause e : Error}
      (hb : eval b.expr s = .error cause t)
      (h : ActionFails env eval rest (env.noted b cause t) a e) :
      ActionFails env eval (b :: rest) s a e

/-- Whatever the mode of an action, its internal failure is recorded.  The induction is on how
the action is reached. -/
theorem ActionFails.recorded (hR : Invariant env Session.Recalls)
    (heval : ∀ x (s : Session), s.Recalls ((eval x).after s)) {as : List RuleAction}
    (h : ActionFails env eval as s a e) (he : e.isInternal = true) :
    Noted e ((runActions env eval as).after s) := by
  induction h with
  | @here a rest s t e h =>
      have hrest : Maintains (Noted e) (runActions env eval rest) :=
        (composable_maintains _).runActions (fun x _ => maintains_noted (heval x.expr))
          fun cause => maintains_noted (hR.recordCurrent cause)
      have hnoted : Noted e (env.noted a e t) := by
        rw [noted, if_neg (by simp [he])]
        exact noted_recordFailure env.rules t.scope.current? e t
      rw [after, runActions_error_cons h rest]
      exact hrest _ hnoted
  | past hb hgo _ ih =>
      rw [after, runActions_ok_cons hb, if_neg hgo]
      exact ih he
  | pastFailure hb _ ih =>
      rw [after, runActions_error_cons hb]
      exact ih he

/-! ## Rules -/

/-- While a rule is evaluated, an action of it or of a rule below it is run and fails. -/
inductive Fails (env : Environment) (limit : Nat) :
    Nat → RuleId → Session → RuleAction → Error → Prop
  | own {budget : Nat} {i : RuleId} {r : Rule} {s u : Session} {a : RuleAction} {e : Error}
      (hacts : env.Acts limit budget i r s u)
      (h : ActionFails env (env.evaluateWithin limit budget) r.actions u a e) :
      Fails env limit (budget + 1) i s a e
  | inChild {budget : Nat} {i c : RuleId} {r : Rule} {before behind : List RuleId}
      {s u : Session} {a : RuleAction} {e : Error} (hacts : env.Acts limit budget i r s u)
      (hchildren : r.children = before ++ c :: behind)
      (h : Fails env limit budget c
        ((runChildren env (env.evaluateRuleWithin limit budget) before).after
          ((runActions env (env.evaluateWithin limit budget) r.actions).after u)) a e) :
      Fails env limit (budget + 1) i s a e

/-- An internal failure of any action that is run is recorded.  The induction is on how the rule
is reached. -/
theorem Fails.recorded (hR : Invariant env Session.Recalls)
    (h : env.Fails limit budget i s a e) (he : e.isInternal = true) :
    Noted e ((env.evaluateRuleWithin limit budget i).after s) := by
  have hchildren : ∀ budget cs,
      Maintains (Noted e) (runChildren env (env.evaluateRuleWithin limit budget) cs) :=
    fun budget cs => (composable_maintains _).runChildren
      (fun c _ => maintains_noted (hR.evaluateRuleWithin limit budget c))
      fun c cause => maintains_noted (hR.recordFailure (some c) cause)
  induction h with
  | @own budget i r s u a e hacts h =>
      rw [hacts.after]
      exact hchildren budget r.children _ (h.recorded hR (hR.evaluateWithin limit budget) he)
  | @inChild budget i c r before behind s u a e hacts hsplit h ih =>
      rw [hacts.after, hsplit, after_runChildren_append, after_runChildren_cons]
      refine hchildren budget behind _ ?_
      have hchild := ih he hchildren
      unfold afterChild
      split
      · exact hchild
      · exact hchild.recalls (hR.recordFailure _ _ _)

end Environment

end RuleScan
