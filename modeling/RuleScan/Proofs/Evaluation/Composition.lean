import RuleScan.Evaluation
import RuleScan.Proofs.Evaluation.Step
import RuleScan.Proofs.Expr.Nodes

/-!
# Evaluation is composed of steps

Whatever an expression or a rule is, its evaluation is a sequence of steps: those of the
expressions and rules inside it, some that read, and some that decide what to do next by an
outcome.  So a property of steps that is passed on by sequencing (`Composable`) holds of the
evaluation as soon as it holds of the parts.  The evaluation is gone through here once, for all
such properties.

Looking up a name is left to the property: what is evaluated then is found in the session.

## Main results

* `Composable.evaluateNode` — from the operands to an expression.
* `Composable.runRule` — from the expressions and the children to a rule.
-/

namespace RuleScan

namespace Step

/-- A property of steps that is passed on by sequencing, and that steps which only read have. -/
structure Composable (C : {α : Type} → Step α → Prop) : Prop where
  pure : ∀ {α : Type} (a : α), C (Pure.pure a : Step α)
  throw : ∀ {α : Type} (e : Error), C (MonadExcept.throw e : Step α)
  bind : ∀ {α β : Type} {t : Step α} {f : α → Step β}, C t → (∀ a, C (f a)) → C (t >>= f)
  attempt : ∀ {α : Type} {t : Step α}, C t → C t.attempt
  read : ∀ offset length, C (Step.read offset length)
  readTerminated : ∀ offset limit, C (Step.readTerminated offset limit)
  scope : C (view Session.scope)

theorem composable_maintains (P : Session → Prop) : Composable fun t => Maintains P t where
  pure := maintains_pure
  throw := maintains_throw
  bind := maintains_bind
  attempt := maintains_attempt
  read := maintains_read
  readTerminated := maintains_readTerminated
  scope := maintains_view Session.scope

end Step

namespace Step.Composable

open Environment

variable {C : {α : Type} → Step α → Prop} {env : Environment} {eval : Expr → Step Value}
  {child : RuleId → Step (Option Match)}

/-! ## Reading -/

theorem ofExcept (hC : Composable C) {α : Type} (r : Except Error α) : C (Step.ofExcept r) := by
  cases r with
  | ok a => exact hC.pure a
  | error e => exact hC.throw e

theorem ofValue (hC : Composable C) {α : Type} (r : Except ValueError α) :
    C (Step.ofValue r) := by
  cases r with
  | ok a => exact hC.pure a
  | error e => exact hC.throw _

theorem mapM (hC : Composable C) {α β : Type} {f : α → Step β} {as : List α}
    (hf : ∀ a ∈ as, C (f a)) : C (as.mapM f) := by
  induction as with
  | nil => exact hC.pure []
  | cons a rest ih =>
      rw [List.forall_mem_cons] at hf
      rw [List.mapM_cons]
      exact hC.bind hf.1 fun _ => hC.bind (ih hf.2) fun _ => hC.pure _

theorem extract (hC : Composable C) (format : ExtractFormat) (offset size : Nat) (m : Register) :
    C (extract format offset size m) := by
  cases format with
  | number =>
      unfold Environment.extract extractNumber
      cases Width.ofBytes? size with
      | none => exact hC.throw _
      | some w => exact hC.bind (hC.read _ _) fun _ => hC.pure _
  | string => exact hC.bind (hC.read _ _) fun _ => hC.pure _
  | stringz => exact hC.bind (hC.readTerminated _ _) fun _ => hC.pure _

/-! ## Expressions -/

theorem call (hC : Composable C) {resolve : String → Step Value} {name : String}
    (hop : ∀ op, env.operators.get? name = some op → ∀ args m,
      C (op.run ⟨env.rules, resolve⟩ args m))
    (args : List Value) (m : Register) : C (env.call resolve name args m) := by
  unfold Environment.call
  cases hn : env.operators.get? name with
  | none => exact hC.throw _
  | some op => exact hC.bind (hC.ofExcept _) fun _ => hop op hn args m

/-- An expression is evaluated by evaluating its operands, looking up a name or calling an
operator. -/
theorem evaluateNode (hC : Composable C) {e : Expr} (heval : ∀ x ∈ e.operands, C (eval x))
    (hname : ∀ name, e = .var name → C (resolveWith eval name))
    (hcall : ∀ name args m values, e = .call name args m →
      C (env.call (resolveWith eval) name values m)) : C (env.evaluateNode eval e) := by
  cases e with
  | literal v => exact hC.pure v
  | var name => exact hname name rfl
  | unary op e =>
      simp only [Expr.operands, List.forall_mem_singleton] at heval
      exact hC.bind heval fun _ => hC.ofValue _
  | binary op l r =>
      simp only [Expr.operands, List.forall_mem_cons] at heval
      obtain ⟨hl, hr, -⟩ := heval
      cases op with
      | connective c =>
          refine hC.bind hl fun _ => hC.bind (hC.ofValue _) fun p => ?_
          split
          · exact hC.pure _
          · exact hC.bind hr fun _ => hC.bind (hC.ofValue _) fun _ => hC.pure _
      | arithmetic o => exact hC.bind hl fun _ => hC.bind hr fun _ => hC.ofValue _
      | comparison o => exact hC.bind hl fun _ => hC.bind hr fun _ => hC.ofValue _
  | index e i =>
      simp only [Expr.operands, List.forall_mem_cons] at heval
      exact hC.bind heval.1 fun _ => hC.bind heval.2.1 fun _ => hC.ofValue _
  | slice e i j =>
      simp only [Expr.operands, List.forall_mem_cons] at heval
      exact hC.bind heval.1 fun _ => hC.bind heval.2.1 fun _ => hC.bind heval.2.2.1 fun _ =>
        hC.ofValue _
  | extract format o n m =>
      simp only [Expr.operands, List.forall_mem_cons] at heval
      exact hC.bind heval.1 fun _ => hC.bind (hC.ofValue _) fun _ => hC.bind heval.2.1 fun _ =>
        hC.bind (hC.ofValue _) fun _ => hC.extract format _ _ m
  | call name args m =>
      exact hC.bind (hC.mapM heval) fun values => hcall name args m values rfl

/-! ## Rules -/

theorem allHold (hC : Composable C) {cs : List Expr} (heval : ∀ c ∈ cs, C (eval c)) :
    C (allHold eval cs) := by
  induction cs with
  | nil => exact hC.pure true
  | cons c rest ih =>
      rw [List.forall_mem_cons] at heval
      refine hC.bind heval.1 fun _ => hC.bind (hC.ofValue _) fun p => ?_
      cases p with
      | true => exact ih heval.2
      | false => exact hC.pure false

theorem forceAll (hC : Composable C) (hname : ∀ name, C (resolveWith eval name))
    (names : List String) : C (forceAll eval names) := by
  induction names with
  | nil => exact hC.pure ()
  | cons name rest ih => exact hC.bind (hname name) fun _ => ih

theorem runActions (hC : Composable C) {as : List RuleAction}
    (heval : ∀ a ∈ as, C (eval a.expr)) (hrecord : ∀ e, C (recordCurrent env.rules e)) :
    C (runActions env eval as) := by
  induction as with
  | nil => exact hC.pure ()
  | cons a rest ih =>
      rw [List.forall_mem_cons] at heval
      refine hC.bind (hC.attempt heval.1) fun r => ?_
      cases r with
      | ok v =>
          dsimp only
          split
          · exact hC.pure ()
          · exact ih heval.2
      | error e =>
          dsimp only
          split
          · exact ih heval.2
          · exact hC.bind (hrecord e) fun _ => ih heval.2

theorem runChildren (hC : Composable C) {is : List RuleId} (hchild : ∀ i ∈ is, C (child i))
    (hrecord : ∀ i e, C (recordFailure env.rules (some i) e)) :
    C (runChildren env child is) := by
  induction is with
  | nil => exact hC.pure ([], [])
  | cons i rest ih =>
      rw [List.forall_mem_cons] at hchild
      refine hC.bind (hC.attempt hchild.1) fun r => ?_
      match r with
      | .ok (some m) => exact hC.bind (ih hchild.2) fun _ => hC.pure _
      | .ok none => exact hC.bind (ih hchild.2) fun _ => hC.pure _
      | .error e =>
          exact hC.bind (hrecord i e) fun _ => hC.bind (ih hchild.2) fun _ => hC.pure _

/-- A rule is evaluated by evaluating its conditions, variables and actions, and its children. -/
theorem runRule (hC : Composable C) (i : RuleId) {r : Rule}
    (hconditions : ∀ c ∈ r.conditions, C (eval c))
    (hname : ∀ name, C (resolveWith eval name))
    (hactions : ∀ a ∈ r.actions, C (eval a.expr)) (hchild : ∀ c ∈ r.children, C (child c))
    (hcurrent : ∀ e, C (recordCurrent env.rules e))
    (hrecord : ∀ i e, C (recordFailure env.rules (some i) e)) : C (runRule env eval child i r) := by
  refine hC.bind (hC.allHold hconditions) fun held => ?_
  cases held with
  | false => exact hC.pure none
  | true =>
      refine hC.bind (hC.forceAll hname r.vars.keys) fun _ => hC.bind ?_ fun _ => hC.pure _
      exact hC.bind hC.scope fun _ => hC.bind (hC.runActions hactions hcurrent) fun _ =>
        hC.bind (hC.runChildren hchild hrecord) fun _ => hC.pure _

end Step.Composable

end RuleScan
