import RuleScan.Operator.Builtin
import RuleScan.Proofs.Evaluation.ByName
import RuleScan.Proofs.Evaluation.Running

/-!
# Caching is not observable

A variable is evaluated once, when it is first needed, and its value is kept in the frame
of its rule.  Which variables have values at some moment depends on the order of the
conditions and on what the connectives skip.  What the rule comes to does not: a value
that is kept is the one that evaluating the expression again would give, since nothing
that the expression reads changes while the rule is evaluated.

The invariant is `Setting.Within`: the frame of the rule lies on those of its ancestors,
and every binding in it is the expression of its variable, is in progress, or is the
meaning of that expression.  Steps and meanings are compared by `Setting.Agrees`, which
follows both along the same sequence of operations.

## Main results

* `agrees_evaluateWithin` — evaluating an expression gives its meaning, or gives up.
* `ensures_forceAll` — evaluating all variables gives all of their meanings.
* `evaluateRule_byName` — the outcome of a rule is the one that its expressions give it.
-/

namespace RuleScan

open Step

/-- All variables of all frames have values. -/
def Scope.AllResolved (s : Scope) : Prop :=
  ∀ f ∈ s.frames, ∀ x ∈ f.bindings.entries, ∃ v, x.2 = .resolved v

theorem Scope.lookupIn_of_allResolved {name : String} {level : Nat} {b : Binding} :
    ∀ {fs : List Frame}, (∀ f ∈ fs, ∀ x ∈ f.bindings.entries, ∃ v, x.2 = .resolved v) →
      lookupIn name fs = some (level, b) → ∃ v, b = .resolved v
  | [], _, h => by cases h
  | f :: outer, hall, h => by
    unfold lookupIn at h
    cases hb : f.bindings.get? name with
    | none =>
        rw [hb] at h
        exact lookupIn_of_allResolved (fun g hg => hall g (List.mem_cons_of_mem _ hg)) h
    | some c =>
        simp only [hb, Option.some.injEq, Prod.mk.injEq] at h
        rw [← h.2]
        exact hall f List.mem_cons_self (name, c) (Table.mem_of_get? hb)

namespace Setting

/-! ## The invariant -/

/-- What the binding of a variable may be: its expression, in progress, or the meaning of
its expression. -/
inductive Admits (w : Setting) (e : Expr) : Binding → Prop
  | unevaluated : Admits w e (.unevaluated e)
  | inProgress : Admits w e .inProgress
  | resolved {v : Value} (h : w.Means e (.ok v)) : Admits w e (.resolved v)

/-- The frame of the rule: it binds the variables of the rule, and those that are done have
values. -/
structure Caches (w : Setting) (done : List String) (f : Frame) : Prop where
  bound : ∀ {name e}, w.vars.get? name = some e →
    ∃ b, f.bindings.get? name = some b ∧ w.Admits e b
  unbound : ∀ {name}, w.vars.get? name = none → f.bindings.get? name = none
  done : ∀ name ∈ done, ∃ v, f.bindings.get? name = some (.resolved v)

/-- The rule is being evaluated in its setting, and these of its variables are done. -/
structure Within (w : Setting) (done : List String) (s : Session) : Prop where
  globals : s.globals = w.globals
  source : s.source = w.source
  scope : ∃ f, s.scope.frames = f :: w.outer.frames ∧ w.Caches done f

variable {w : Setting} {done : List String} {α β : Type}

theorem Within.withDepth {s : Session} (h : w.Within done s) (depth : Nat) :
    w.Within done { s with depth := depth } :=
  ⟨h.globals, h.source, h.scope⟩

/-- Rebinding a variable of the rule touches no other one, and keeps those that are done if
it leaves values alone. -/
theorem Within.replace {s : Session} (h : w.Within done s) {name : String} {e : Expr}
    (he : w.vars.get? name = some e) {b : Binding} (hb : w.Admits e b) {done' : List String}
    (hdone : ∀ x ∈ done', x ∈ done ∧ x ≠ name ∨ x = name ∧ ∃ v, b = .resolved v) :
    w.Within done' { s with scope := s.scope.replaceAt w.outer.frames.length name b } := by
  obtain ⟨f, hf, hc⟩ := h.scope
  refine ⟨h.globals, h.source, { f with bindings := f.bindings.replace name b }, ?_, ?_, ?_, ?_⟩
  · simp [Scope.replaceAt, hf, Scope.replaceIn]
  · intro x e' he'
    obtain ⟨c, hx, hadm⟩ := hc.bound he'
    by_cases hxn : x = name
    · subst hxn
      rw [he, Option.some.injEq] at he'
      exact ⟨b, by simp [Table.get?_replace, hx], he' ▸ hb⟩
    · exact ⟨c, by simp [Table.get?_replace, hx, hxn], hadm⟩
  · intro x hx
    simp [Table.get?_replace, hc.unbound hx]
  · intro x hx
    obtain ⟨hmem, hne⟩ | ⟨rfl, v, rfl⟩ := hdone x hx
    · obtain ⟨v, hv⟩ := hc.done x hmem
      exact ⟨v, by simp [Table.get?_replace, hv, hne]⟩
    · obtain ⟨c, hc, -⟩ := hc.bound he
      exact ⟨v, by simp [Table.get?_replace, hc]⟩

/-! ## Steps and meanings -/

/-- The step gave up. -/
def GivesUp : Except Error α → Prop
  | .ok _ => False
  | .error e => e.isLimit = true

/-- A step that succeeded did not give up. -/
theorem of_ok_or {a : α} {p : Prop} (h : GivesUp (.ok a : Except Error α) ∨ p) : p :=
  h.resolve_left id

/-- In its setting the step has the outcome that the meaning tells, unless it gives up, and
leaves the setting and what is done as they are. -/
def Agrees (w : Setting) (t : Step α) (m : Nat → Meaning α) : Prop :=
  ∀ done, Ensures (w.Within done) t fun r s => w.Within done s ∧ (GivesUp r ∨ Ends m r)

theorem agrees_pure (a : α) : w.Agrees (pure a) fun _ => pure a :=
  fun _ => ensures_pure fun _ hs => ⟨hs, Or.inr (ends_const rfl)⟩

theorem agrees_throw (e : Error) : w.Agrees (throw e : Step α) fun _ => throw e :=
  fun _ => ensures_throw fun _ hs => ⟨hs, Or.inr (ends_const rfl)⟩

theorem agrees_giveUp {e : Error} (h : e.isLimit = true) (m : Nat → Meaning α) :
    w.Agrees (throw e) m :=
  fun _ => ensures_throw fun _ hs => ⟨hs, Or.inl h⟩

theorem agrees_ofValue (r : Except ValueError α) :
    w.Agrees (Step.ofValue r) fun _ => Meaning.ofValue r := by
  cases r with
  | ok a => exact agrees_pure a
  | error e => exact agrees_throw (.value e)

/-- The rest of a sequence sees what its first part gives, in the same setting. -/
theorem agrees_bind {t : Step α} {m : Nat → Meaning α} {f : α → Step β}
    {k : α → Nat → Meaning β} (h : w.Agrees t m) (hf : ∀ a, w.Agrees (f a) (k a)) :
    w.Agrees (t >>= f) fun levels => m levels >>= fun a => k a levels := by
  intro done
  refine ensures_bind (h done) ?_ ?_
  · intro a s ⟨hs, hr⟩
    have hm : Ends m (.ok a) := of_ok_or hr
    obtain ⟨hs', hr'⟩ := hf a done s hs
    exact ⟨hs', hr'.imp_right hm.bind⟩
  · rintro e s ⟨hs, hr⟩
    exact ⟨hs, hr.imp_right fun hm => hm.bind_error k⟩

theorem agrees_nested {t : Step α} {m : Nat → Meaning α} (limit : Nat) (h : w.Agrees t m) :
    w.Agrees (nested limit t) m := by
  intro done
  refine ensures_nested (fun s hs => ⟨hs, Or.inl rfl⟩) fun s hs => ?_
  obtain ⟨hs', hr⟩ := h done _ (hs.withDepth (s.depth + 1))
  exact ⟨hs'.withDepth _, hr⟩

theorem agrees_global (name : String) : w.Agrees (Step.global name) fun _ => w.global name := by
  intro done s hs
  unfold Step.global global outcome after
  simp only [hs.globals]
  cases w.globals.get? name with
  | some v => exact ⟨hs, Or.inr (ends_const rfl)⟩
  | none => exact ⟨hs, Or.inr (ends_const rfl)⟩

theorem agrees_read (offset length : Nat) :
    w.Agrees (Step.read offset length) fun _ => ofExcept (w.source.read offset length) := by
  intro done s hs
  unfold Step.read outcome after
  simp only [hs.source]
  cases w.source.read offset length with
  | ok bytes => exact ⟨hs, Or.inr (ends_const rfl)⟩
  | error e => exact ⟨hs, Or.inr (ends_const rfl)⟩

theorem agrees_readTerminated (offset limit : Nat) :
    w.Agrees (Step.readTerminated offset limit) fun _ =>
      ofExcept (w.source.readTerminated offset limit) := by
  intro done s hs
  unfold Step.readTerminated outcome after
  simp only [hs.source]
  cases w.source.readTerminated offset limit with
  | ok bytes => exact ⟨hs, Or.inr (ends_const rfl)⟩
  | error e => exact ⟨hs, Or.inr (ends_const rfl)⟩

theorem agrees_extract (format : ExtractFormat) (offset size : Nat) (metadata : Register) :
    w.Agrees (Environment.extract format offset size metadata) fun _ =>
      w.extract format offset size metadata := by
  cases format with
  | number =>
      unfold Environment.extract Environment.extractNumber extract
      cases Width.ofBytes? size with
      | none => exact agrees_throw _
      | some width => exact agrees_bind (agrees_read _ _) fun _ => agrees_pure _
  | string => exact agrees_bind (agrees_read _ _) fun _ => agrees_pure _
  | stringz => exact agrees_bind (agrees_readTerminated _ _) fun _ => agrees_pure _

/-- An evaluator gives expressions without calls their meanings. -/
def Faithful (w : Setting) (eval : Expr → Step Value) : Prop :=
  ∀ e, e.callFree = true → w.Agrees (eval e) fun levels => w.byName levels e

/-! ## Variables -/

/-- What is promised of a setting: the variables call no operator and have no name that is
global, and the ancestors' variables have values. -/
structure Plain (w : Setting) : Prop where
  callFree : ∀ x ∈ w.vars.entries, x.2.callFree = true
  names : ∀ name ∈ w.vars.keys, name.toList.head? ≠ some '$'
  outer : w.outer.AllResolved

/-- A step gives a variable of the rule its meaning.  Only where it succeeds is the variable
done. -/
structure Evaluates (w : Setting) (done : List String) (name : String) (e : Expr)
    (t : Step Value) (s : Session) : Prop where
  within : w.Within done (t.after s)
  finished : ∀ v, t.outcome s = .ok v → w.Within (name :: done) (t.after s)
  means : GivesUp (t.outcome s) ∨ w.Means e (t.outcome s)

theorem Evaluates.of_run_eq {name : String} {e : Expr} {t t' : Step Value} {s : Session}
    (hrun : t s = t' s) (h : w.Evaluates done name e t' s) : w.Evaluates done name e t s := by
  have houtcome : t.outcome s = t'.outcome s := by
    unfold outcome
    rw [hrun]
  have hafter : t.after s = t'.after s := by
    unfold after
    rw [hrun]
  obtain ⟨hwithin, hfinished, hmeans⟩ := h
  rw [← houtcome, ← hafter] at hfinished
  exact ⟨hafter ▸ hwithin, hfinished, houtcome ▸ hmeans⟩

/-- What is done has a value, so it is not a variable that is yet to be evaluated. -/
theorem Within.ne_of_unevaluated {s : Session} (hs : w.Within done s) {f : Frame}
    (hf : s.scope.frames = f :: w.outer.frames) {name : String} {e : Expr}
    (hb : f.bindings.get? name = some (.unevaluated e)) {x : String} (hx : x ∈ done) :
    x ≠ name := by
  rintro rfl
  obtain ⟨g, hg, hc⟩ := hs.scope
  rw [hf, List.cons.injEq] at hg
  obtain ⟨v, hv⟩ := hc.done x hx
  rw [← hg.1, hb, Option.some.injEq] at hv
  cases hv

section Variables

variable {eval : Expr → Step Value}

/-- The expression of a variable is evaluated under a mark, which touches no variable that is
done. -/
theorem evaluates_settle {name : String} {e : Expr}
    (heval : w.Agrees (eval e) fun levels => w.byName levels e)
    (he : w.vars.get? name = some e) {s : Session} (hs : w.Within done s) {f : Frame}
    (hf : s.scope.frames = f :: w.outer.frames)
    (hb : f.bindings.get? name = some (.unevaluated e)) :
    w.Evaluates done name e (Environment.settle eval w.outer.frames.length name e) s := by
  have hkeep : ∀ x ∈ done, x ∈ done ∧ x ≠ name := fun x hx =>
    ⟨hx, hs.ne_of_unevaluated hf hb hx⟩
  have hmarked := hs.replace he .inProgress fun x hx => Or.inl (hkeep x hx)
  obtain ⟨hafter, hr⟩ := heval done _ hmarked
  cases hrun : eval e
      { s with scope := s.scope.replaceAt w.outer.frames.length name .inProgress } with
  | ok v s' =>
      rw [outcome_of_ok hrun] at hr
      rw [after_of_ok hrun] at hafter
      have hm : w.Means e (.ok v) := of_ok_or hr
      have hsettle := Environment.settle_ok hrun
      constructor
      · rw [after_of_ok hsettle]
        exact hafter.replace he (.resolved hm) fun x hx => Or.inl (hkeep x hx)
      · intro u _
        rw [after_of_ok hsettle]
        refine hafter.replace he (.resolved hm) fun x hx => ?_
        by_cases hxn : x = name
        · exact Or.inr ⟨hxn, v, rfl⟩
        · exact Or.inl ⟨(List.mem_cons.1 hx).resolve_left hxn, hxn⟩
      · rw [outcome_of_ok hsettle]
        exact Or.inr hm
  | error cause s' =>
      rw [outcome_of_error hrun] at hr
      rw [after_of_error hrun] at hafter
      have hsettle := Environment.settle_error hrun
      constructor
      · rw [after_of_error hsettle]
        exact hafter.replace he .unevaluated fun x hx => Or.inl (hkeep x hx)
      · intro u hu
        rw [outcome_of_error hsettle] at hu
        cases hu
      · rw [outcome_of_error hsettle]
        exact hr

/-- A variable of the rule has its meaning, whether it was kept or is computed now. -/
theorem evaluates_resolveWith (hw : w.Plain) {name : String} {e : Expr}
    (heval : w.Agrees (eval e) fun levels => w.byName levels e)
    (he : w.vars.get? name = some e) {s : Session} (hs : w.Within done s) :
    w.Evaluates done name e (Environment.resolveWith eval name) s := by
  have hname : name.toList.head? ≠ some '$' :=
    hw.names name (List.mem_map.2 ⟨(name, e), Table.mem_of_get? he, rfl⟩)
  obtain ⟨f, hf, hc⟩ := hs.scope
  obtain ⟨b, hb, hadm⟩ := hc.bound he
  have hl : s.scope.lookup name = some (w.outer.frames.length, b) := by
    simp [Scope.lookup, hf, Scope.lookupIn, hb]
  cases hadm with
  | unevaluated =>
      have hrun : Environment.resolveWith eval name s =
          Environment.settle eval w.outer.frames.length name e s :=
        Environment.resolveWith_unevaluated hname hl
      exact (evaluates_settle heval he hs hf hb).of_run_eq hrun
  | inProgress =>
      have hrun : Environment.resolveWith eval name s = _ :=
        Environment.resolveWith_inProgress hname hl
      constructor
      · rwa [after_of_error hrun]
      · intro v hv
        rw [outcome_of_error hrun] at hv
        cases hv
      · rw [outcome_of_error hrun]
        exact Or.inl rfl
  | @resolved v hm =>
      have hrun : Environment.resolveWith eval name s = _ :=
        Environment.resolveWith_resolved hname hl
      constructor
      · rwa [after_of_ok hrun]
      · intro u _
        rw [after_of_ok hrun]
        refine ⟨hs.globals, hs.source, f, hf, hc.bound, hc.unbound, fun x hx => ?_⟩
        obtain rfl | hx := List.mem_cons.1 hx
        · exact ⟨v, hb⟩
        · exact hc.done x hx
      · rw [outcome_of_ok hrun]
        exact Or.inr hm

/-- A name that is not a variable of the rule is looked up outside of it. -/
theorem agrees_inherited (hw : w.Plain) {name : String} (hn : w.vars.get? name = none) :
    w.Agrees (Environment.resolveWith eval name) fun _ => w.inherited name := by
  unfold inherited
  by_cases hname : name.toList.head? = some '$'
  · rw [if_pos hname, Environment.resolveWith_dollar hname]
    exact agrees_global name
  · rw [if_neg hname]
    intro done s hs
    obtain ⟨f, hf, hc⟩ := hs.scope
    have hl : s.scope.lookup name = w.outer.lookup name := by
      simp [Scope.lookup, hf, Scope.lookupIn, hc.unbound hn]
    have hempty : s.scope.isEmpty = false := by simp [Scope.isEmpty, hf]
    have hscoped : Environment.resolveWith eval name s = _ :=
      Environment.resolveWith_scoped hname hempty
    unfold Scope.value?
    cases hfound : w.outer.lookup name with
    | none =>
        rw [hl, hfound] at hscoped
        unfold outcome after
        rw [hscoped]
        exact agrees_global name done s hs
    | some found =>
        obtain ⟨level, b⟩ := found
        obtain ⟨v, rfl⟩ := Scope.lookupIn_of_allResolved hw.outer hfound
        have ht : Environment.resolveWith eval name s = _ :=
          Environment.resolveWith_resolved hname (hl.trans hfound)
        rw [after_of_ok ht, outcome_of_ok ht]
        exact ⟨hs, Or.inr (ends_const rfl)⟩

/-- A name has its meaning. -/
theorem agrees_var (hw : w.Plain) (heval : w.Faithful eval) (name : String) :
    w.Agrees (Environment.resolveWith eval name) fun levels =>
      w.node (w.byName levels) (.var name) := by
  cases he : w.vars.get? name with
  | none =>
      simp only [node_inherited he]
      exact agrees_inherited hw he
  | some e =>
      simp only [node_own he]
      have hfree := hw.callFree (name, e) (Table.mem_of_get? he)
      intro done s hs
      have hvalue := evaluates_resolveWith hw (heval e hfree) he hs
      exact ⟨hvalue.within, hvalue.means⟩

end Variables

/-! ## Expressions -/

section Expressions

variable {env : Environment}

/-- A node has its meaning when the nodes below it have theirs. -/
theorem agrees_evaluateNode (hw : w.Plain) {eval : Expr → Step Value}
    (heval : w.Faithful eval) {e : Expr} (hfree : e.callFree = true) :
    w.Agrees (env.evaluateNode eval e) fun levels => w.node (w.byName levels) e := by
  cases e with
  | literal v => exact agrees_pure v
  | var name => exact agrees_var hw heval name
  | unary op e => exact agrees_bind (heval e hfree) fun _ => agrees_ofValue _
  | binary op l r =>
      simp only [Expr.callFree, Bool.and_eq_true] at hfree
      have hl := heval l hfree.1
      have hr := heval r hfree.2
      cases op with
      | connective c =>
          refine agrees_bind hl fun v => agrees_bind (agrees_ofValue v.truthy) fun p => ?_
          split
          · exact agrees_pure _
          · exact agrees_bind hr fun u => agrees_bind (agrees_ofValue u.truthy) fun _ =>
              agrees_pure _
      | arithmetic o => exact agrees_bind hl fun _ => agrees_bind hr fun _ => agrees_ofValue _
      | comparison o => exact agrees_bind hl fun _ => agrees_bind hr fun _ => agrees_ofValue _
  | index e i =>
      simp only [Expr.callFree, Bool.and_eq_true] at hfree
      exact agrees_bind (heval e hfree.1) fun _ => agrees_bind (heval i hfree.2) fun _ =>
        agrees_ofValue _
  | slice e i j =>
      simp only [Expr.callFree, Bool.and_eq_true] at hfree
      exact agrees_bind (heval e hfree.1.1) fun _ => agrees_bind (heval i hfree.1.2) fun _ =>
        agrees_bind (heval j hfree.2) fun _ => agrees_ofValue _
  | extract format o n metadata =>
      simp only [Expr.callFree, Bool.and_eq_true] at hfree
      exact agrees_bind (heval o hfree.1) fun v => agrees_bind (agrees_ofValue v.asOffset) fun _ =>
        agrees_bind (heval n hfree.2) fun u => agrees_bind (agrees_ofValue u.asOffset) fun _ =>
          agrees_extract format _ _ metadata
  | call name args metadata => cases hfree

/-- The induction is on the budget; where it ends, evaluation gives up. -/
theorem agrees_evaluateWithin (hw : w.Plain) (limit budget : Nat) {e : Expr}
    (hfree : e.callFree = true) :
    w.Agrees (env.evaluateWithin limit budget e) fun levels => w.byName levels e := by
  induction budget generalizing e with
  | zero => exact agrees_giveUp rfl _
  | succ budget ih =>
      rw [Environment.evaluateWithin_succ]
      intro done s hs
      have hnode : w.Agrees (env.evaluateNode (env.evaluateWithin limit budget) e) fun levels =>
          w.node (w.byName levels) e :=
        agrees_evaluateNode hw (fun _ => ih) hfree
      obtain ⟨hs', hr⟩ := agrees_nested limit hnode done s hs
      exact ⟨hs', hr.imp_right Ends.of_succ⟩

end Expressions

/-! ## Conditions and variables of a rule -/

theorem Stops.cons {c : Expr} {cs : List Expr} {r : Except Error Bool}
    (hc : w.MeansTruth c (.ok true)) (h : w.Stops cs r) : w.Stops (c :: cs) r := by
  obtain ⟨before, d, after, rfl, hbefore, hd⟩ := h
  exact ⟨c :: before, d, after, rfl, List.forall_mem_cons.2 ⟨hc, hbefore⟩, hd⟩

theorem Fails.cons {x : String × Expr} {xs : List (String × Expr)} {cause : Error} {v : Value}
    (hx : w.Means x.2 (.ok v)) (h : w.Fails xs cause) :
    w.Fails (x :: xs) cause := by
  obtain ⟨before, y, after, rfl, hbefore, hy⟩ := h
  exact ⟨x :: before, y, after, rfl, List.forall_mem_cons.2 ⟨⟨v, hx⟩, hbefore⟩, hy⟩

section Rules

variable {eval : Expr → Step Value}

/-- The search through the conditions ends at the first that is not true. -/
theorem ensures_allHold (heval : w.Faithful eval) {cs : List Expr}
    (hfree : ∀ c ∈ cs, c.callFree = true) :
    Ensures (w.Within done) (Environment.allHold eval cs) fun r s => w.Within done s ∧
      (GivesUp r ∨ (r = .ok true ∧ w.AllTrue cs) ∨ (r ≠ .ok true ∧ w.Stops cs r)) := by
  induction cs with
  | nil => exact ensures_pure fun s hs => ⟨hs, Or.inr (Or.inl ⟨rfl, by simp [AllTrue]⟩)⟩
  | cons c rest ih =>
      obtain ⟨hc, hrest⟩ := List.forall_mem_cons.1 hfree
      have htruth : w.Agrees (eval c >>= fun v => Step.ofValue v.truthy) fun levels =>
          w.truth levels c :=
        agrees_bind (heval c hc) fun v => agrees_ofValue v.truthy
      unfold Environment.allHold
      rw [← bind_assoc]
      refine ensures_bind (htruth done) ?_ ?_
      · intro p s ⟨hs, hr⟩
        have hp : w.MeansTruth c (.ok p) := of_ok_or hr
        cases p with
        | true =>
            obtain ⟨hs', h⟩ := ih hrest s hs
            refine ⟨hs', h.imp id (Or.imp ?_ ?_)⟩
            · exact fun ⟨hr, hall⟩ => ⟨hr, List.forall_mem_cons.2 ⟨hp, hall⟩⟩
            · exact fun ⟨hr, hstop⟩ => ⟨hr, hstop.cons hp⟩
        | false =>
            refine ⟨hs, Or.inr (Or.inr ⟨nofun, [], c, rest, rfl, ?_, hp⟩)⟩
            simp [AllTrue]
      · rintro e s ⟨hs, hr⟩
        refine ⟨hs, hr.imp_right fun hp => Or.inr ⟨nofun, [], c, rest, rfl, ?_, hp⟩⟩
        simp [AllTrue]

/-- Evaluating variables in order ends at the first that fails, or all of them are done. -/
theorem ensures_forceAll (hw : w.Plain) (heval : w.Faithful eval)
    {xs : List (String × Expr)} (hxs : ∀ x ∈ xs, x ∈ w.vars.entries) :
    Ensures (w.Within done) (Environment.forceAll eval (xs.map Prod.fst)) fun r s =>
      GivesUp r ∨
      (r = .ok () ∧ w.AllDefined xs ∧ w.Within ((xs.map Prod.fst).reverse ++ done) s) ∨
      ∃ cause, r = .error cause ∧ w.Fails xs cause := by
  induction xs generalizing done with
  | nil =>
      refine ensures_pure fun s hs => Or.inr (Or.inl ⟨rfl, ?_, by simpa using hs⟩)
      simp [AllDefined]
  | cons x rest ih =>
      obtain ⟨name, e⟩ := x
      obtain ⟨hx, hrest⟩ := List.forall_mem_cons.1 hxs
      have he : w.vars.get? name = some e := Table.get?_of_mem hx
      have hvalue := fun s (hs : w.Within done s) =>
        evaluates_resolveWith hw (heval e (hw.callFree _ hx)) he hs
      rw [List.map_cons]
      unfold Environment.forceAll
      refine ensures_bind (R := fun r s => (∀ v, r = .ok v → w.Within (name :: done) s) ∧
        (GivesUp r ∨ w.Means e r)) (fun s hs => ⟨(hvalue s hs).finished, (hvalue s hs).means⟩)
        ?_ ?_
      · intro v s ⟨hs, hr⟩
        have hv : w.Means e (.ok v) := of_ok_or hr
        refine (ih hrest s (hs v rfl)).imp id (Or.imp ?_ ?_)
        · rintro ⟨hr, hall, hs'⟩
          exact ⟨hr, List.forall_mem_cons.2 ⟨⟨v, hv⟩, hall⟩, by simpa using hs'⟩
        · rintro ⟨cause, hr, hfail⟩
          exact ⟨cause, hr, hfail.cons hv⟩
      · rintro cause s ⟨-, hr⟩
        refine hr.imp_right fun hv => Or.inr ⟨cause, rfl, [], (name, e), rest, rfl, ?_, hv⟩
        simp [AllDefined]

/-- The snapshot has the meaning of every variable that is done. -/
theorem Within.get?_snapshot {s : Session} (hs : w.Within done s) {name : String} {e : Expr}
    (he : w.vars.get? name = some e) (hdone : name ∈ done) :
    ∃ v, w.Means e (.ok v) ∧ s.scope.snapshot.get? name = some v := by
  obtain ⟨f, hf, hc⟩ := hs.scope
  obtain ⟨v, hv⟩ := hc.done name hdone
  obtain ⟨b, hb, hadm⟩ := hc.bound he
  rw [hv, Option.some.injEq] at hb
  subst hb
  cases hadm with
  | resolved hm => exact ⟨v, hm, Scope.get?_snapshot hf hv⟩

variable {env : Environment} {child : RuleId → Step (Option Match)}

/-- The conditions of a rule hold; what it comes to depends on its variables. -/
theorem ensures_forced (hw : w.Plain) (heval : w.Faithful eval) (i : RuleId) {r : Rule}
    (hvars : r.vars = w.vars) (htrue : w.AllTrue r.conditions) :
    Ensures (w.Within []) (do
        Environment.forceAll eval r.vars.keys
        let m ← Environment.runMatched env eval child i r
        pure (some m)) fun o _ => w.Verdict r o := by
  refine ensures_bind (ensures_forceAll hw heval fun x hx => hvars ▸ hx) ?_ ?_
  · rintro ⟨⟩ s (hlim | ⟨-, -, hs⟩ | ⟨cause, he, -⟩)
    · exact hlim.elim
    · obtain ⟨children, unmatched, s', hmatched⟩ :=
        Environment.runMatched_ok env eval child i r s
      have hrun : (do
          let m ← Environment.runMatched env eval child i r
          pure (some m)) s = .ok (some (.node i r.id s.scope.snapshot children unmatched)) s' :=
        bind_of_ok hmatched _
      rw [outcome_of_ok hrun]
      refine .matched htrue fun x hx => ?_
      refine hs.get?_snapshot (hvars ▸ Table.get?_of_mem hx) ?_
      simpa using ⟨x.2, hx⟩
    · cases he
  · rintro cause s (hlim | ⟨he, -⟩ | ⟨e, he, hfail⟩)
    · exact .gaveUp hlim
    · cases he
    · cases he
      exact .badVariable htrue hfail

/-- Within its setting a rule comes to what its expressions give it. -/
theorem ensures_runRule (hw : w.Plain) (heval : w.Faithful eval) (i : RuleId) {r : Rule}
    (hvars : r.vars = w.vars) (hconds : ∀ c ∈ r.conditions, c.callFree = true) :
    Ensures (w.Within []) (Environment.runRule env eval child i r) fun o _ => w.Verdict r o := by
  unfold Environment.runRule
  refine ensures_bind (ensures_allHold heval hconds) ?_ ?_
  · rintro held s ⟨hs, hlim | ⟨he, htrue⟩ | ⟨hheld, hstop⟩⟩
    · exact hlim.elim
    · cases he
      exact ensures_forced hw heval i hvars htrue s hs
    · cases held with
      | true => exact absurd rfl hheld
      | false => exact .rejected hstop
  · rintro cause s ⟨-, hlim | ⟨he, -⟩ | ⟨-, hstop⟩⟩
    · exact .gaveUp hlim
    · cases he
    · exact .badCondition hstop

end Rules

end Setting

namespace Environment

/-- Before its first condition none of a rule's variables is done. -/
theorem within_push {r : Rule} (s : Session) (i : RuleId) :
    (⟨r.vars, s.scope, s.globals, s.source⟩ : Setting).Within []
      { s with scope := s.scope.push i r.vars.entries } := by
  obtain ⟨f, hf, hget⟩ := s.scope.exists_frame_push i r.vars
  refine ⟨rfl, rfl, f, hf, ?_, ?_, fun _ h => absurd h List.not_mem_nil⟩
  · intro name e he
    exact ⟨.unevaluated e, (hget name).trans (congrArg (Option.map _) he), .unevaluated⟩
  · intro name he
    exact (hget name).trans (congrArg (Option.map _) he)

/--
**Caching is not observable.**  Let the conditions and the variables of a rule call no
operator, let its variables have no `$` in front of their names, and let the variables of
its ancestors have values.  Then evaluating the rule, with whatever operators in its
actions, comes to what its expressions mean by name.
-/
theorem evaluateRule_byName (env : Environment) (limit : Nat) {i : RuleId} {r : Rule}
    (hi : env.rules.rules[i]? = some r) (hfree : r.callFree)
    (hnames : ∀ name ∈ r.vars.keys, name.toList.head? ≠ some '$') (s : Session)
    (houter : s.scope.AllResolved) :
    (⟨r.vars, s.scope, s.globals, s.source⟩ : Setting).Verdict r
      ((env.evaluateRule limit i).outcome s) := by
  let w : Setting := ⟨r.vars, s.scope, s.globals, s.source⟩
  have hw : w.Plain := ⟨hfree.2, hnames, houter⟩
  show w.Verdict r ((env.evaluateRuleWithin limit (s.room limit) i).outcome s)
  cases s.room limit with
  | zero => exact .gaveUp rfl
  | succ budget =>
      rw [evaluateRuleWithin_succ env limit budget hi]
      refine ensures_nested (P := (· = s)) (Q := fun o _ => w.Verdict r o) (fun _ _ => .gaveUp rfl)
        ?_ s rfl
      intro t ht
      rw [ht, outcome_inFrame]
      exact Setting.ensures_runRule hw
        (fun _ he => Setting.agrees_evaluateWithin hw limit budget he) i rfl hfree.1 _
        ((within_push s i).withDepth (s.depth + 1))

/-- `magic = String(0, 2); found = magic == prefix;`, where a match needs `found`. -/
def magicRule : Rule :=
  { Rule.new "magic" "r" with
    vars := Table.ofList
      [("magic", .extract .string (.literal (.number (.ofNat 0 .w8)))
          (.literal (.number (.ofNat 2 .w8))) ∅),
        ("found", .binary (.comparison .eq) (.var "magic") (.var "prefix"))]
    conditions := [.var "found"] }

/-- A session below a rule that gave `prefix` a value. -/
def magicSession : Session :=
  { Session.start default (Source.ofFile "a" [80, 75, 3]) ∅ none with
    scope := ⟨[⟨1, Table.ofList [("prefix", .resolved (.bytes [80, 75]))]⟩]⟩ }

theorem evaluateRule_byName_magicRule :
    let env : Environment := ⟨⟨#[magicRule], ∅, [0], ∅⟩, .builtins⟩
    magicRule.callFree ∧ (∀ name ∈ magicRule.vars.keys, name.toList.head? ≠ some '$') ∧
      magicSession.scope.AllResolved ∧
      (⟨magicRule.vars, magicSession.scope, magicSession.globals, magicSession.source⟩ :
        Setting).Verdict magicRule ((env.evaluateRule depthLimit 0).outcome magicSession) := by
  intro env
  have hfree : magicRule.callFree := by
    unfold Rule.callFree
    decide
  have hnames : ∀ name ∈ magicRule.vars.keys, name.toList.head? ≠ some '$' := by decide
  have houter : magicSession.scope.AllResolved := by
    intro f hf x hx
    obtain rfl := List.mem_singleton.1 hf
    obtain rfl := List.mem_singleton.1 hx
    exact ⟨_, rfl⟩
  exact ⟨hfree, hnames, houter,
    evaluateRule_byName env depthLimit rfl hfree hnames magicSession houter⟩

/-! ## Variables with a global name -/

/-- `$x = true;` in a rule without conditions. -/
def dollarRule : Rule :=
  { Rule.new "a" "r" with vars := Table.ofList [("$x", .literal (.bool true))] }

/-- A session with a global `$x`. -/
def dollarSession : Session :=
  Session.start default (Source.ofFile "a" []) ((∅ : Register).set "$x" (.bool false)) none

/-- A name with a `$` in front is looked up among the globals only, so a variable of such a
name is never evaluated and has no value in the match. -/
theorem evaluateRule_dollarRule :
    let env : Environment := ⟨⟨#[dollarRule], ∅, [0], ∅⟩, .builtins⟩
    dollarRule.callFree ∧ dollarSession.scope.AllResolved ∧
      ¬ (⟨dollarRule.vars, dollarSession.scope, dollarSession.globals, dollarSession.source⟩ :
        Setting).Verdict dollarRule ((env.evaluateRule depthLimit 0).outcome dollarSession) := by
  intro env
  refine ⟨?_, fun _ h => absurd h List.not_mem_nil, fun hverdict => ?_⟩
  · unfold Rule.callFree
    decide
  · have hout : ((env.evaluateRule depthLimit 0).outcome dollarSession).toOption.map
        (Option.map Match.vars) = some (some ∅) := by
      decide +kernel
    generalize (env.evaluateRule depthLimit 0).outcome dollarSession = o at hout hverdict
    cases hverdict with
    | matched _ values =>
        obtain ⟨v, -, hv⟩ := values ("$x", .literal (.bool true)) (by decide)
        have hempty := Option.some.inj (Option.some.inj hout)
        rw [hempty] at hv
        cases hv
    | rejected _ => cases hout
    | gaveUp _ => cases hout
    | badCondition _ => cases hout
    | badVariable _ _ => cases hout

end Environment

end RuleScan
