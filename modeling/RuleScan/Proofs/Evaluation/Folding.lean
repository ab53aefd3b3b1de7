import RuleScan.Evaluation
import RuleScan.Expr.Fold
import RuleScan.Operator.Builtin
import RuleScan.Proofs.Evaluation.Step

/-!
# Folding keeps the meaning of expressions

A folded expression is evaluated in fewer levels than the expression it comes from, so it
may have a value where the other one fails for want of levels.  That is the only
difference.  Everywhere else the two have the same outcome and leave the same session
behind: the operands that folding drops are literals, which do nothing, or stand to the
right of a literal that decides the connective, where evaluation does not look either.

The relation is `Step.ReplaceableBy`.  It is closed under everything that evaluation is
made of, so it is shown for one node at a time and carried along the recursion of `fold`.

## Main results

* `evaluateNode_foldUnary`, `evaluateNode_foldBinary`, `evaluateNode_foldIndex`,
  `evaluateNode_foldSlice` — folding one node.
* `evaluateWithin_fold` — folding a whole expression, for every budget.
* `evaluate_simplify` — simplifying an expression keeps its meaning.
-/

namespace RuleScan

namespace Step

variable {α β : Type} {limit : Nat}

/-- The second step does the same as the first wherever the first does not fail for want
of levels. -/
def ReplaceableBy (limit : Nat) (t u : Step α) : Prop :=
  ∀ s, t.outcome s ≠ .error (.tooDeep limit) → u s = t s

namespace ReplaceableBy

theorem refl (limit : Nat) (t : Step α) : ReplaceableBy limit t t := fun _ _ => rfl

theorem trans {t u v : Step α} (h : ReplaceableBy limit t u) (h' : ReplaceableBy limit u v) :
    ReplaceableBy limit t v := by
  intro s hs
  have htu := h s hs
  have hu : u.outcome s ≠ .error (.tooDeep limit) := by
    unfold outcome at hs ⊢
    rwa [htu]
  rw [h' s hu, htu]

/-- A sequence is short of levels when its first step is or when the rest of it is. -/
theorem bind {t u : Step α} {f g : α → Step β} (h : ReplaceableBy limit t u)
    (hf : ∀ a, ReplaceableBy limit (f a) (g a)) : ReplaceableBy limit (t >>= f) (u >>= g) := by
  intro s hs
  cases ht : t s with
  | ok a s' =>
      have hu : u s = .ok a s' := (h s (by simp [outcome_of_ok ht])).trans ht
      rw [bind_of_ok ht, bind_of_ok hu]
      refine hf a s' ?_
      unfold outcome at hs ⊢
      rwa [bind_of_ok ht] at hs
  | error e s' =>
      have hu : u s = .error e s' := by
        refine (h s ?_).trans ht
        rw [outcome_of_error (bind_of_error ht f)] at hs
        rw [outcome_of_error ht]
        exact fun he => hs (congrArg Except.error (Except.error.inj he))
      rw [bind_of_error ht, bind_of_error hu]

theorem bind_left {t u : Step α} (h : ReplaceableBy limit t u) (f : α → Step β) :
    ReplaceableBy limit (t >>= f) (u >>= f) :=
  h.bind fun a => refl limit (f a)

/-- A step that may be replaced by a value hands this value on. -/
theorem bind_pure {t : Step α} {a : α} (h : ReplaceableBy limit t (pure a)) (f : α → Step β) :
    ReplaceableBy limit (t >>= f) (f a) :=
  h.bind_left f

theorem nested {t u : Step α} (h : ReplaceableBy limit t u) :
    ReplaceableBy limit (nested limit t) (nested limit u) := by
  intro s hs
  unfold Step.nested
  by_cases hd : limit ≤ s.depth
  · simp only [hd, if_true]
  · have hinner : t.outcome { s with depth := s.depth + 1 } ≠ .error (.tooDeep limit) := by
      unfold outcome Step.nested at hs
      unfold outcome
      simp only [hd, if_false] at hs
      cases ht : t { s with depth := s.depth + 1 } <;> simpa only [ht] using hs
    simp only [hd, if_false, h _ hinner]

/-- A value takes no level, so nothing is lost where it comes without one. -/
theorem nested_pure (limit : Nat) (a : α) :
    ReplaceableBy limit (Step.nested limit (pure a)) (pure a) := by
  intro s hs
  unfold Step.nested at hs ⊢
  unfold outcome at hs
  by_cases hd : limit ≤ s.depth
  · simp [hd] at hs
  · simp only [hd, if_false]
    rfl

end ReplaceableBy

end Step

namespace Environment

open RuleScan.Expr Step

/-! ## One node -/

section Node

variable {env : Environment} {limit : Nat} {eval : Expr → Step Value}

/-- Replacing the operands of a node replaces the node. -/
theorem evaluateNode_unary {a b : Expr} (op : UnaryOp)
    (h : ReplaceableBy limit (eval a) (eval b)) :
    ReplaceableBy limit (env.evaluateNode eval (unary op a)) (env.evaluateNode eval (unary op b)) :=
  h.bind_left _

theorem evaluateNode_binary {a b c d : Expr} (op : BinaryOp)
    (hl : ReplaceableBy limit (eval a) (eval c)) (hr : ReplaceableBy limit (eval b) (eval d)) :
    ReplaceableBy limit (env.evaluateNode eval (binary op a b))
      (env.evaluateNode eval (binary op c d)) := by
  cases op with
  | arithmetic o => exact hl.bind fun _ => hr.bind_left _
  | comparison o => exact hl.bind fun _ => hr.bind_left _
  | connective o =>
      refine hl.bind fun v => (ReplaceableBy.refl limit (ofValue v.truthy)).bind fun p => ?_
      split
      · exact .refl limit _
      · exact hr.bind_left _

theorem evaluateNode_index {a b c d : Expr} (hs : ReplaceableBy limit (eval a) (eval c))
    (hi : ReplaceableBy limit (eval b) (eval d)) :
    ReplaceableBy limit (env.evaluateNode eval (index a b)) (env.evaluateNode eval (index c d)) :=
  hs.bind fun _ => hi.bind_left _

theorem evaluateNode_slice {a b c a' b' c' : Expr} (hs : ReplaceableBy limit (eval a) (eval a'))
    (hi : ReplaceableBy limit (eval b) (eval b')) (hj : ReplaceableBy limit (eval c) (eval c')) :
    ReplaceableBy limit (env.evaluateNode eval (slice a b c))
      (env.evaluateNode eval (slice a' b' c')) :=
  hs.bind fun _ => hi.bind fun _ => hj.bind_left _

theorem evaluateNode_extract {a b c d : Expr} (format : ExtractFormat) (m : Register)
    (ho : ReplaceableBy limit (eval a) (eval c)) (hn : ReplaceableBy limit (eval b) (eval d)) :
    ReplaceableBy limit (env.evaluateNode eval (.extract format a b m))
      (env.evaluateNode eval (.extract format c d m)) :=
  ho.bind fun v => (ReplaceableBy.refl limit (ofValue v.asOffset)).bind fun _ => hn.bind_left _

theorem evaluateNode_call {as bs : List Expr} (name : String) (m : Register)
    (h : ReplaceableBy limit (as.mapM eval) (bs.mapM eval)) :
    ReplaceableBy limit (env.evaluateNode eval (.call name as m))
      (env.evaluateNode eval (.call name bs m)) :=
  h.bind_left _

/-! ## Folding one node -/

variable (hlit : ∀ v, ReplaceableBy limit (eval (literal v)) (pure v))

include hlit

theorem evaluateNode_foldUnary {op : UnaryOp} {e r : Folded Expr}
    (h : foldUnary op e = .ok r) :
    ReplaceableBy limit (env.evaluateNode eval (unary op e.result))
      (env.evaluateNode eval r.result) := by
  unfold foldUnary at h
  cases hv : e.result.literal? with
  | none =>
      simp only [hv, Except.ok.injEq] at h
      rw [← h]
      exact .refl limit _
  | some v =>
      cases hw : Value.unary op v with
      | error cause => simp [hv, hw, Except.map] at h
      | ok w =>
          simp only [hv, hw, Except.map, Except.ok.injEq] at h
          rw [← h, literal?_eq_some_iff.1 hv]
          refine ((hlit v).bind_pure _).trans ?_
          rw [hw]
          exact .refl limit _

/-- Both operands of a binary operation are known. -/
private theorem evaluateNode_binary_literals {op : BinaryOp} {v w x : Value}
    (h : Value.binary op v w = .ok x) :
    ReplaceableBy limit (env.evaluateNode eval (binary op (literal v) (literal w))) (pure x) := by
  have hstrict : ReplaceableBy limit
      (eval (literal v) >>= fun v => eval (literal w) >>= fun w => ofValue (Value.binary op v w))
      (pure x) := by
    refine ((hlit v).bind_pure _).trans (((hlit w).bind_pure _).trans ?_)
    rw [h]
    exact .refl limit _
  cases op with
  | arithmetic o => exact hstrict
  | comparison o => exact hstrict
  | connective c =>
      obtain ⟨p, hp, h⟩ := bind_eq_ok h
      obtain ⟨q, hq, h⟩ := bind_eq_ok h
      simp only [pure, Except.pure, Except.ok.injEq] at h
      refine ((hlit v).bind_pure _).trans ?_
      simp only [hp, ofValue, pure_bind]
      by_cases hc : p = c.decisive
      · rw [hc, c.apply_decisive] at h
        simp only [hc, if_true, h]
        exact .refl limit _
      · rw [Connective.apply_of_ne_decisive hc] at h
        simp only [hc, if_false]
        refine ((hlit w).bind_pure _).trans ?_
        simp only [hq, pure_bind, h]
        exact .refl limit _

/-- The left operand of a connective decides it, so the right one is not looked at. -/
private theorem evaluateNode_decided {c : Connective} {v : Value} (r : Expr)
    (h : v.truthy = .ok c.decisive) :
    ReplaceableBy limit (env.evaluateNode eval (binary (.connective c) (literal v) r))
      (pure (.bool c.decisive)) := by
  refine ((hlit v).bind_pure _).trans ?_
  simp only [h, ofValue, pure_bind, if_true]
  exact .refl limit _

theorem evaluateNode_foldBinary {op : BinaryOp} {l r s : Folded Expr}
    (h : foldBinary op l r = .ok s) :
    ReplaceableBy limit (env.evaluateNode eval (binary op l.result r.result))
      (env.evaluateNode eval s.result) := by
  unfold foldBinary at h
  obtain ⟨found, hfound, h⟩ := bind_eq_ok h
  cases found with
  | none =>
      simp only [pure, Except.pure, Except.ok.injEq] at h
      rw [← h]
      exact .refl limit _
  | some x =>
      simp only [pure, Except.pure, Except.ok.injEq] at h
      rw [← h]
      obtain ⟨v, w, hv, hw, hx⟩ | ⟨c, v, rfl, hv, hp, rfl⟩ := binaryValue?_eq_some hfound
      · rw [literal?_eq_some_iff.1 hv, literal?_eq_some_iff.1 hw]
        exact evaluateNode_binary_literals hlit hx
      · rw [literal?_eq_some_iff.1 hv]
        exact evaluateNode_decided hlit r.result hp

theorem evaluateNode_foldIndex {e i r : Folded Expr} (h : foldIndex e i = .ok r) :
    ReplaceableBy limit (env.evaluateNode eval (index e.result i.result))
      (env.evaluateNode eval r.result) := by
  unfold foldIndex at h
  split at h
  · next v w hv hw =>
    cases hx : Value.index v w with
    | error cause => simp [hx, Except.map] at h
    | ok x =>
        simp only [hx, Except.map, Except.ok.injEq] at h
        rw [literal?_eq_some_iff.1 hv, literal?_eq_some_iff.1 hw, ← h]
        refine ((hlit v).bind_pure _).trans (((hlit w).bind_pure _).trans ?_)
        rw [hx]
        exact .refl limit _
  · simp only [Except.ok.injEq] at h
    rw [← h]
    exact .refl limit _

theorem evaluateNode_foldSlice {e i j r : Folded Expr} (h : foldSlice e i j = .ok r) :
    ReplaceableBy limit (env.evaluateNode eval (slice e.result i.result j.result))
      (env.evaluateNode eval r.result) := by
  unfold foldSlice at h
  split at h
  · next u v w hu hv hw =>
    cases hx : Value.slice u v w with
    | error cause => simp [hx, Except.map] at h
    | ok x =>
        simp only [hx, Except.map, Except.ok.injEq] at h
        rw [literal?_eq_some_iff.1 hu, literal?_eq_some_iff.1 hv, literal?_eq_some_iff.1 hw, ← h]
        refine ((hlit u).bind_pure _).trans
          (((hlit v).bind_pure _).trans (((hlit w).bind_pure _).trans ?_))
        rw [hx]
        exact .refl limit _
  · simp only [Except.ok.injEq] at h
    rw [← h]
    exact .refl limit _

end Node

/-! ## Folding expressions -/

section Fold

variable {env : Environment} {limit : Nat}

/-- A literal has its value on every level that there is. -/
theorem evaluateWithin_literal (budget : Nat) (v : Value) :
    ReplaceableBy limit (env.evaluateWithin limit budget (literal v)) (pure v) := by
  cases budget with
  | zero =>
      intro s hs
      exact absurd rfl hs
  | succ budget => exact .nested_pure limit v

/-- Replacing the node of an expression replaces the expression. -/
theorem evaluateWithin_of_node {e e' : Expr} {budget : Nat}
    (h : ∀ budget, ReplaceableBy limit (env.evaluateNode (env.evaluateWithin limit budget) e)
      (env.evaluateNode (env.evaluateWithin limit budget) e')) :
    ReplaceableBy limit (env.evaluateWithin limit budget e)
      (env.evaluateWithin limit budget e') := by
  cases budget with
  | zero => exact .refl limit _
  | succ budget => exact (h budget).nested

mutual

/-- The recursion is that of `fold`: the folded operands replace the operands, and folding
the node over them replaces the node. -/
theorem evaluateWithin_fold : ∀ {e : Expr} {r : Folded Expr}, e.fold = .ok r → ∀ budget,
    ReplaceableBy limit (env.evaluateWithin limit budget e)
      (env.evaluateWithin limit budget r.result)
  | literal _, r, h, _ | var _, r, h, _ => by
    simp only [fold, Except.ok.injEq] at h
    rw [← h]
    exact .refl limit _
  | unary op e, r, h, budget => by
    obtain ⟨f, hf, h⟩ := bind_eq_ok h
    exact evaluateWithin_of_node fun b =>
      (evaluateNode_unary op (evaluateWithin_fold hf b)).trans
        (evaluateNode_foldUnary (evaluateWithin_literal b) h)
  | binary op a b, r, h, budget => by
    obtain ⟨f, hf, h⟩ := bind_eq_ok h
    obtain ⟨g, hg, h⟩ := bind_eq_ok h
    exact evaluateWithin_of_node fun b =>
      (evaluateNode_binary op (evaluateWithin_fold hf b) (evaluateWithin_fold hg b)).trans
        (evaluateNode_foldBinary (evaluateWithin_literal b) h)
  | index a b, r, h, budget => by
    obtain ⟨f, hf, h⟩ := bind_eq_ok h
    obtain ⟨g, hg, h⟩ := bind_eq_ok h
    exact evaluateWithin_of_node fun b =>
      (evaluateNode_index (evaluateWithin_fold hf b) (evaluateWithin_fold hg b)).trans
        (evaluateNode_foldIndex (evaluateWithin_literal b) h)
  | slice a b c, r, h, budget => by
    obtain ⟨f, hf, h⟩ := bind_eq_ok h
    obtain ⟨g, hg, h⟩ := bind_eq_ok h
    obtain ⟨k, hk, h⟩ := bind_eq_ok h
    exact evaluateWithin_of_node fun b =>
      (evaluateNode_slice (evaluateWithin_fold hf b) (evaluateWithin_fold hg b)
        (evaluateWithin_fold hk b)).trans
        (evaluateNode_foldSlice (evaluateWithin_literal b) h)
  | .extract format a b m, r, h, budget => by
    obtain ⟨f, hf, h⟩ := bind_eq_ok h
    obtain ⟨g, hg, h⟩ := bind_eq_ok h
    simp only [pure, Except.pure, Except.ok.injEq] at h
    rw [← h]
    exact evaluateWithin_of_node fun b =>
      evaluateNode_extract format m (evaluateWithin_fold hf b) (evaluateWithin_fold hg b)
  | .call name as m, r, h, budget => by
    obtain ⟨f, hf, h⟩ := bind_eq_ok h
    simp only [pure, Except.pure, Except.ok.injEq] at h
    rw [← h]
    exact evaluateWithin_of_node fun b => evaluateNode_call name m (mapM_fold hf b)

theorem mapM_fold : ∀ {es : List Expr} {r : Folded (List Expr)}, foldList es = .ok r →
    ∀ budget, ReplaceableBy limit (es.mapM (env.evaluateWithin limit budget))
      (r.result.mapM (env.evaluateWithin limit budget))
  | [], r, h, _ => by
    simp only [foldList, Except.ok.injEq] at h
    rw [← h]
    exact .refl limit _
  | e :: rest, r, h, budget => by
    obtain ⟨f, hf, h⟩ := bind_eq_ok h
    obtain ⟨g, hg, h⟩ := bind_eq_ok h
    simp only [pure, Except.pure, Except.ok.injEq] at h
    rw [← h, List.mapM_cons, List.mapM_cons]
    exact (evaluateWithin_fold hf budget).bind fun _ => (mapM_fold hg budget).bind_left _

end

end Fold

/--
**Folding keeps the meaning.**  Where an expression does not fail for want of levels, the
simplified expression has the same outcome in the same state and leaves the same session
behind, whatever the operators do.
-/
theorem evaluate_simplify (env : Environment) (limit : Nat) {e e' : Expr}
    (h : e.simplify = .ok e') (s : Session)
    (hdeep : (env.evaluate limit e).outcome s ≠ .error (.tooDeep limit)) :
    env.evaluate limit e' s = env.evaluate limit e s := by
  unfold simplify at h
  cases hr : e.fold with
  | error cause => simp [hr, Except.map] at h
  | ok r =>
      simp only [hr, Except.map, Except.ok.injEq] at h
      rw [← h]
      exact evaluateWithin_fold hr (s.room limit) s hdeep

/-- `("PK\x03"[0:2] == "PK") && flag`, of which the comparison is known. -/
def signatureCheck : Expr :=
  binary (.connective .and)
    (binary (.comparison .eq)
      (slice (literal (.bytes [80, 75, 3])) (literal (.number (.ofNat 0 .w8)))
        (literal (.number (.ofNat 2 .w8))))
      (literal (.bytes [80, 75])))
    (var "flag")

/-- A session in which nobody has needed `flag` so far. -/
def flagSession : Session :=
  { Session.start default (Source.ofFile "a" [80, 75]) ∅ none with
    scope := Scope.push ∅ 0 [("flag", .unary .not (literal (.bool false)))] }

theorem evaluate_simplify_signatureCheck :
    signatureCheck.simplify = .ok (binary (.connective .and) (literal (.bool true)) (var "flag")) ∧
    (evaluate ⟨∅, .builtins⟩ depthLimit signatureCheck).outcome flagSession ≠
      .error (.tooDeep depthLimit) ∧
    evaluate ⟨∅, .builtins⟩ depthLimit
        (binary (.connective .and) (literal (.bool true)) (var "flag")) flagSession =
      evaluate ⟨∅, .builtins⟩ depthLimit signatureCheck flagSession := by
  have hfold : signatureCheck.simplify =
      .ok (binary (.connective .and) (literal (.bool true)) (var "flag")) := rfl
  have hvalue : ((evaluate ⟨∅, .builtins⟩ depthLimit signatureCheck).outcome
      flagSession).toOption = some (.bool true) := by
    decide +kernel
  have hdeep : (evaluate ⟨∅, .builtins⟩ depthLimit signatureCheck).outcome flagSession ≠
      .error (.tooDeep depthLimit) := by
    intro h
    rw [h] at hvalue
    cases hvalue
  exact ⟨hfold, hdeep, evaluate_simplify ⟨∅, .builtins⟩ depthLimit hfold flagSession hdeep⟩

end Environment

end RuleScan
