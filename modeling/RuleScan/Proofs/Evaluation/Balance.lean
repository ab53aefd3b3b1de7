import RuleScan.Proofs.Evaluation.Builtin
import RuleScan.Proofs.Evaluation.Invariant
import RuleScan.Proofs.Evaluation.Settling

/-!
# Evaluation is balanced

Evaluation enters levels, pushes frames and marks bindings, and every failure leaves it
early.  Yet whatever the outcome, it ends on the level on which it began and in the scope
in which it began, some of whose variables now have values.  So no mark stays behind, a
variable whose expression failed can be tried again, and a value that was found is never
computed a second time while its frame lives.

## Main results

* `balanced_invariant` — being balanced is an invariant of evaluation.
* `Scope.Settles.marked_eq` — the bindings in progress are the same before and after.
* `evaluation_balanced` — expressions, names and rules are evaluated in balance.
-/

namespace RuleScan

/-- Evaluation may lead from the first session to the second: the level is the same, and
the scope has settled. -/
structure Session.Balanced (s t : Session) : Prop where
  depth : t.depth = s.depth
  scope : s.scope.Settles t.scope

theorem Session.SameView.balanced {s t : Session} (h : s.SameView t) : s.Balanced t :=
  ⟨h.depth, h.scope ▸ .refl s.scope⟩

/-! ## Marks -/

/-- The names in a frame that are in progress. -/
def Frame.marked (f : Frame) : List String :=
  f.bindings.keys.filter fun name => f.bindings.get? name = some .inProgress

/-- The names in progress in each frame, innermost first. -/
def Scope.marked (s : Scope) : List (List String) := s.frames.map Frame.marked

theorem Frame.Settles.marked_eq {f g : Frame} (h : f.Settles g) : g.marked = f.marked := by
  unfold Frame.marked
  rw [h.names]
  apply List.filter_congr
  intro name _
  cases hb : f.bindings.get? name with
  | none => simp [h.get?_none hb]
  | some b =>
      obtain ⟨c, hc, hbc⟩ := h.bindings hb
      cases hbc <;> simp [hc]

/-- What is in progress after settling was in progress before, and the other way round. -/
theorem Scope.Settles.marked_eq {s t : Scope} (h : s.Settles t) : t.marked = s.marked := by
  obtain ⟨fs⟩ := s
  obtain ⟨gs⟩ := t
  have hfs : List.Forall₂ Frame.Settles fs gs := h
  unfold Scope.marked
  induction hfs with
  | nil => rfl
  | cons hf hrest ih => simpa [hf.marked_eq] using ih hrest

/-! ## Names that have a value -/

private theorem lookupIn_append {name : String} {top fs : List Frame}
    (h : ∀ f ∈ top, f.bindings.get? name = none) :
    Scope.lookupIn name (top ++ fs) = Scope.lookupIn name fs := by
  induction top with
  | nil => rfl
  | cons f rest ih =>
      rw [List.cons_append, Scope.lookupIn, h f (by simp)]
      exact ih fun g hg => h g (by simp [hg])

/-- A value stays where it was found while its frame lives, also below further frames that
do not bind its name. -/
theorem Scope.Settles.lookup_resolved {s t u : Scope} (h : s.Settles u) {top : List Frame}
    (ht : t.frames = top ++ u.frames) {name : String}
    (hn : ∀ f ∈ top, f.bindings.get? name = none) {level : Nat} {v : Value}
    (hl : s.lookup name = some (level, .resolved v)) :
    t.lookup name = some (level, .resolved v) := by
  obtain ⟨c, hc, hvc⟩ := h.lookup hl
  cases hvc
  rw [Scope.lookup, ht, lookupIn_append hn]
  exact hc

namespace Environment

open Step

/-- With the built-in operators, being balanced survives everything that evaluation undoes. -/
theorem balanced_invariant (rules : RuleSet) :
    Invariant ⟨rules, .builtins⟩ Session.Balanced where
  refl s := ⟨rfl, .refl s.scope⟩
  trans h h' := ⟨h'.depth.trans h.depth, h.scope.trans h'.scope⟩
  nested h := ⟨by simp [h.depth], h.scope⟩
  settled hl h hb := by
    refine ⟨h.depth, h.scope.of_marked hl ?_⟩
    obtain rfl | ⟨v, rfl⟩ := hb
    · exact .same _
    · exact .resolved _ v
  framed := by
    intro s t i vars h
    refine ⟨h.depth, ?_⟩
    have hscope := h.scope
    unfold Scope.Settles Scope.pop at *
    cases hscope' : t.scope.frames with
    | nil =>
        rw [hscope'] at hscope
        cases hscope
    | cons f outer =>
        rw [hscope'] at hscope
        cases hscope with
        | cons _ hrest => exact hrest
  recorded s _ := ⟨rfl, .refl s.scope⟩
  called hop host args m _ s := (Builtin.sameView_builtins hop host args m s).balanced

/-- The binding of a variable is settled by the outcome of its expression. -/
theorem lookup_resolve (rules : RuleSet) (limit : Nat) {s : Session} {name : String}
    (hname : name.toList.head? ≠ some '$') {level : Nat} {e : Expr}
    (hl : s.scope.lookup name = some (level, .unevaluated e)) :
    ((resolve ⟨rules, .builtins⟩ limit name).after s).scope.lookup name =
      some (level, match (resolve ⟨rules, .builtins⟩ limit name).outcome s with
        | .ok v => .resolved v
        | .error _ => .unevaluated e) := by
  let env : Environment := ⟨rules, .builtins⟩
  let eval := env.evaluateWithin limit (s.room limit)
  let marked : Session := { s with scope := s.scope.replaceAt level name .inProgress }
  have hres : resolve env limit name s = settle eval level name e s :=
    resolveWith_unevaluated hname hl
  have hbal : marked.Balanced ((eval e).after marked) :=
    (balanced_invariant rules).evaluateWithin limit (s.room limit) e marked
  obtain ⟨c, hc, -⟩ := hbal.scope.lookup (Scope.lookup_replaceAt .inProgress hl)
  cases hr : eval e marked with
  | ok v t =>
      rw [after_of_ok hr] at hc
      have h := hres.trans (settle_ok hr)
      rw [after_of_ok h, outcome_of_ok h]
      exact Scope.lookup_replaceAt (.resolved v) hc
  | error cause t =>
      rw [after_of_error hr] at hc
      have h := hres.trans (settle_error hr)
      rw [after_of_error h, outcome_of_error h]
      exact Scope.lookup_replaceAt (.unevaluated e) hc

/--
**Balance of evaluation.**  Whatever the state and the outcome, evaluating an expression,
a name or a rule ends on the level on which it began, with the frames with which it
began, every binding of which is what it was or has become a value.  In particular the
bindings in progress are those that were in progress before; a variable whose expression
failed has this expression again; and what has a value keeps it and is not evaluated
again while its frame lives.
-/
theorem evaluation_balanced (rules : RuleSet) (limit : Nat) (s : Session) :
    (∀ e, s.Balanced ((evaluate ⟨rules, .builtins⟩ limit e).after s)) ∧
    (∀ name, s.Balanced ((resolve ⟨rules, .builtins⟩ limit name).after s)) ∧
    (∀ i, s.Balanced ((evaluateRule ⟨rules, .builtins⟩ limit i).after s)) ∧
    (∀ t, s.Balanced t → t.scope.marked = s.scope.marked) ∧
    (∀ name level e, name.toList.head? ≠ some '$' →
      s.scope.lookup name = some (level, .unevaluated e) →
      ((resolve ⟨rules, .builtins⟩ limit name).after s).scope.lookup name =
        some (level, match (resolve ⟨rules, .builtins⟩ limit name).outcome s with
          | .ok v => .resolved v
          | .error _ => .unevaluated e)) ∧
    (∀ name level v, name.toList.head? ≠ some '$' →
      s.scope.lookup name = some (level, .resolved v) →
      ∀ (t : Session) (u : Scope), s.scope.Settles u → ∀ top, t.scope.frames = top ++ u.frames →
        (∀ f ∈ top, f.bindings.get? name = none) →
        resolve ⟨rules, .builtins⟩ limit name t = .ok v t) := by
  have hinv := balanced_invariant rules
  refine ⟨fun e => hinv.evaluate limit e s, fun name => hinv.resolve limit name s,
    fun i => hinv.evaluateRule limit i s, fun t ht => ht.scope.marked_eq, ?_, ?_⟩
  · intro name level e hname hl
    exact lookup_resolve rules limit hname hl
  · intro name level v hname hl t u hu top ht htop
    exact resolveWith_resolved hname (hu.lookup_resolved ht htop hl)

end Environment

end RuleScan
