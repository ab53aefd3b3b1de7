import RuleScan.Proofs.Evaluation.Accounting
import RuleScan.Proofs.Evaluation.Blaming
import RuleScan.Proofs.Evaluation.Caching
import RuleScan.Proofs.Evaluation.Forcing
import RuleScan.Proofs.Rule.Linking
import Mathlib.Logic.Relation

/-!
# Circular dependencies are reported exactly

A variable needs the variables of its rule that its expression mentions.  While the expression is
evaluated the binding is marked, and whoever comes upon a mark reports a circular dependency.
Marks are set and taken back in the middle of other evaluations, a variable may be needed along
many ways, and names of ancestors may be hidden by names of the rule.  Still, a report is never
wrong: the variable that it names does need itself.

The invariant is `Rule.Tracks`: of the frames, only the innermost one has variables left to
evaluate, and the marks in it are those of the variables that are just being evaluated.  Each of
these needs whatever the expression mentions that is evaluated now (`Rule.IsBehind`), so a mark
that is met closes a cycle.

Once a rule has evaluated all of its variables no marks are met any more, so its actions report no
circular dependency, and its children find themselves below frames whose variables have values.

## Main results

* `blames_evaluateWithin` — below frames with values, an expression reports cycles of its rule.
* `blames_evaluateWithin_hasValues` — where all variables have values, it reports none.
* `honest_evaluateRuleWithin` — what a rule fails with, and what is recorded below it.
* `circularDependency_onCycle` — a circular dependency is one.
-/

namespace RuleScan

open Relation (TransGen)

/-! ## The variables that a variable needs -/

/-- The expression of the first variable of the rule mentions the second one. -/
def Rule.Needs (r : Rule) (x y : String) : Prop :=
  y ∈ r.vars.keys ∧ ∃ e, r.vars.get? x = some e ∧ .var y ∈ e.nodes

/-- The variable needs itself, over other variables or at once. -/
def Rule.OnCycle (r : Rule) (x : String) : Prop := TransGen r.Needs x x

/-- These variables all need what the expression mentions. -/
def Rule.IsBehind (r : Rule) (marks : List String) (e : Expr) : Prop :=
  ∀ y ∈ r.vars.keys, .var y ∈ e.nodes → ∀ x ∈ marks, TransGen r.Needs x y

namespace Rule.IsBehind

variable {r : Rule} {marks : List String} {e : Expr}

theorem nil (r : Rule) (e : Expr) : r.IsBehind [] e := fun _ _ _ _ hx => nomatch hx

theorem operand (h : r.IsBehind marks e) {x : Expr} (hx : x ∈ e.operands) :
    r.IsBehind marks x :=
  fun y hy hmentioned => h y hy (Expr.nodes_subset_of_mem_operands hx hmentioned)

/-- What needs a variable needs whatever that variable needs. -/
theorem mark {name : String} (h : r.IsBehind marks (.var name)) (hname : name ∈ r.vars.keys)
    (he : r.vars.get? name = some e) : r.IsBehind (name :: marks) e := by
  intro y hy hmentioned
  have hneeds : r.Needs name y := ⟨hy, e, he, hmentioned⟩
  refine List.forall_mem_cons.2 ⟨.single hneeds, fun x hx => ?_⟩
  exact (h name hname (Expr.mem_nodes_self _) x hx).tail hneeds

end Rule.IsBehind

/-! ## Frames whose variables have values -/

/-- The variables of the frame that names lead to have values. -/
def Frame.HasValues (f : Frame) : Prop :=
  ∀ {name b}, f.bindings.get? name = some b → Scope.IsLocal name → ∃ v, b = .resolved v

/-- The variables of all frames have values. -/
def Scope.HasValues (s : Scope) : Prop := ∀ f ∈ s.frames, f.HasValues

theorem Scope.AllResolved.hasValues {s : Scope} (h : s.AllResolved) : s.HasValues :=
  fun f hf {name b} hb _ => h f hf (name, b) (Table.mem_of_get? hb)

theorem Scope.HasValues.of_lookup {s : Scope} (h : s.HasValues) {name : String}
    (hname : IsLocal name) {level : Nat} {b : Binding} (hl : s.lookup name = some (level, b)) :
    ∃ v, b = .resolved v := by
  obtain ⟨f, hf, hb⟩ := exists_of_lookupIn hl
  exact h f hf hb hname

/-! ## The frame of a rule that is being evaluated -/

/-- The frame belongs to the rule.  These variables are marked, at most, and these are done. -/
structure Frame.Tracks (r : Rule) (marks done : List String) (f : Frame) : Prop where
  names : f.bindings.keys = r.vars.keys
  unevaluated : ∀ {x e}, f.bindings.get? x = some (.unevaluated e) → r.vars.get? x = some e
  inProgress : ∀ {x}, f.bindings.get? x = some .inProgress → x ∈ marks
  done : ∀ x ∈ done, Scope.IsLocal x → ∃ v, f.bindings.get? x = some (.resolved v)

namespace Frame.Tracks

variable {r : Rule} {marks done : List String} {f : Frame} {name : String} {e : Expr}

/-- A rule starts without marks. -/
theorem start (r : Rule) (i : RuleId) : (r.frame i).Tracks r [] [] where
  names := Table.keys_mapValues _ _
  unevaluated h := by
    rw [Rule.get?_frame, Option.map_eq_some_iff] at h
    obtain ⟨d, hd, hde⟩ := h
    cases hde
    exact hd
  inProgress h := by
    rw [Rule.get?_frame, Option.map_eq_some_iff] at h
    obtain ⟨d, -, hd⟩ := h
    cases hd
  done := nofun

theorem mem_keys (h : f.Tracks r marks done) {b : Binding}
    (hb : f.bindings.get? name = some b) : name ∈ r.vars.keys := by
  rw [← h.names]
  exact List.mem_map_of_mem (Table.mem_of_get? hb)

theorem exists_get? (h : f.Tracks r marks done) (hname : name ∈ r.vars.keys) :
    ∃ b, f.bindings.get? name = some b := by
  rw [← Option.ne_none_iff_exists', Ne, Table.get?_eq_none_iff, not_not, h.names]
  exact hname

/-- What is not evaluated yet is not done. -/
theorem ne_of_unevaluated (h : f.Tracks r marks done)
    (hu : f.bindings.get? name = some (.unevaluated e)) :
    ∀ x ∈ done, Scope.IsLocal x → x ≠ name := by
  rintro x hx hlocal rfl
  obtain ⟨v, hv⟩ := h.done x hx hlocal
  rw [hv] at hu
  cases hu

/-- A variable that is evaluated now is marked. -/
theorem mark (h : f.Tracks r marks done)
    (hu : f.bindings.get? name = some (.unevaluated e)) :
    Frame.Tracks r (name :: marks) done
      { f with bindings := f.bindings.replace name .inProgress } where
  names := (Table.keys_replace _ _ _).trans h.names
  unevaluated hx := by
    rw [Table.get?_replace, Option.map_eq_some_iff] at hx
    obtain ⟨d, hd, hx⟩ := hx
    split at hx
    · cases hx
    · exact h.unevaluated (hx ▸ hd)
  inProgress hx := by
    rw [Table.get?_replace, Option.map_eq_some_iff] at hx
    obtain ⟨d, hd, hx⟩ := hx
    split at hx
    · next heq => exact heq ▸ List.mem_cons_self
    · exact List.mem_cons_of_mem _ (h.inProgress (hx ▸ hd))
  done x hx hlocal := by
    obtain ⟨v, hv⟩ := h.done x hx hlocal
    exact ⟨v, by simp [Table.get?_replace, hv, h.ne_of_unevaluated hu x hx hlocal]⟩

/-- In the end the mark gives way to a value, or again to the expression of the variable. -/
theorem settle (h : f.Tracks r (name :: marks) done) {b : Binding}
    (hb : (∃ e, b = .unevaluated e ∧ r.vars.get? name = some e) ∨ ∃ v, b = .resolved v)
    (hdone : ∀ x ∈ done, Scope.IsLocal x → x ≠ name) :
    Frame.Tracks r marks done { f with bindings := f.bindings.replace name b } where
  names := (Table.keys_replace _ _ _).trans h.names
  unevaluated hx := by
    rw [Table.get?_replace, Option.map_eq_some_iff] at hx
    obtain ⟨d, hd, hx⟩ := hx
    split at hx
    · next heq =>
      obtain ⟨e, rfl, he⟩ | ⟨v, rfl⟩ := hb
      · cases hx
        exact heq ▸ he
      · cases hx
    · exact h.unevaluated (hx ▸ hd)
  inProgress hx := by
    rw [Table.get?_replace, Option.map_eq_some_iff] at hx
    obtain ⟨d, hd, hx⟩ := hx
    split at hx
    · obtain ⟨e, rfl, -⟩ | ⟨v, rfl⟩ := hb <;> cases hx
    · next hne => exact (List.mem_cons.1 (h.inProgress (hx ▸ hd))).resolve_left hne
  done x hx hlocal := by
    obtain ⟨v, hv⟩ := h.done x hx hlocal
    exact ⟨v, by simp [Table.get?_replace, hv, hdone x hx hlocal]⟩

/-- A variable that has a value is done. -/
theorem finish (h : f.Tracks r marks done)
    (hname : Scope.IsLocal name → ∃ v, f.bindings.get? name = some (.resolved v)) :
    f.Tracks r marks (name :: done) :=
  ⟨h.names, h.unevaluated, h.inProgress, List.forall_mem_cons.2 ⟨hname, h.done⟩⟩

/-- A frame in which all variables of the rule are done has values only. -/
theorem hasValues (h : f.Tracks r marks done) (hdone : r.vars.keys ⊆ done) : f.HasValues := by
  intro name b hb hname
  obtain ⟨v, hv⟩ := h.done name (hdone (h.mem_keys hb)) hname
  rw [hb, Option.some.injEq] at hv
  exact ⟨v, hv⟩

end Frame.Tracks

/-- The rule is being evaluated below these frames: its own frame is the innermost. -/
def Scope.Tracks (r : Rule) (outer : List Frame) (marks done : List String) (s : Scope) : Prop :=
  ∃ f : Frame, s.frames = f :: outer ∧ f.Tracks r marks done

/-- The session is in the frame of the rule, below frames whose variables have values, and none of
the variables of the rule is just being evaluated. -/
structure Session.Rests (r : Rule) (outer : List Frame) (s : Session) : Prop where
  source : s.source.IsPlain
  values : ∀ f ∈ outer, f.HasValues
  scope : s.scope.Tracks r outer [] []

theorem Scope.Tracks.replaceAt {r : Rule} {outer : List Frame} {marks done : List String}
    {s : Scope} {f : Frame} (hs : s.frames = f :: outer) {name : String} {b : Binding}
    (h : Frame.Tracks r marks done { f with bindings := f.bindings.replace name b }) :
    (s.replaceAt outer.length name b).Tracks r outer marks done :=
  ⟨_, by simp [Scope.replaceAt, hs, replaceIn], h⟩

namespace Environment

open Step

variable {rules : RuleSet} {limit budget : Nat} {r : Rule} {outer : List Frame}
  {marks done : List String} {eval : Expr → Step Value}

/-! ## Expressions -/

/-- A variable of the rule was resolved, or could not be: what holds then. -/
structure Looked (r : Rule) (outer : List Frame) (marks done : List String) (name : String)
    (outcome : Except Error Value) (s : Session) : Prop where
  source : s.source.IsPlain
  scope : s.scope.Tracks r outer marks done
  blames : ∀ n, outcome = .error (.circularDependency n) → r.OnCycle n
  finished : ∀ v, outcome = .ok v → name ∈ r.vars.keys → s.scope.Tracks r outer marks (name :: done)

/-- The expressions of the rule are evaluated with cycles of the rule reported only. -/
def Faultless (r : Rule) (outer : List Frame) (eval : Expr → Step Value) : Prop :=
  ∀ {marks done e}, r.IsBehind marks e → Blames (Scope.Tracks r outer marks done) r.OnCycle (eval e)

theorem looked_settle (heval : Faultless r outer eval) {name : String} {e : Expr} {f : Frame}
    {s : Session} (hbehind : r.IsBehind marks (.var name)) (hplain : s.source.IsPlain)
    (hs : s.scope.frames = f :: outer) (hf : f.Tracks r marks done)
    (hu : f.bindings.get? name = some (.unevaluated e)) :
    Looked r outer marks done name ((settle eval outer.length name e).outcome s)
      ((settle eval outer.length name e).after s) := by
  have he := hf.unevaluated hu
  have hne := hf.ne_of_unevaluated hu
  have hmarked := hbehind.mark (hf.mem_keys hu) he
  obtain ⟨⟨hplain', g, hg, htracks⟩, hblamed⟩ :=
    heval hmarked { s with scope := s.scope.replaceAt outer.length name .inProgress }
      ⟨hplain, .replaceAt hs (hf.mark hu)⟩
  cases hr : eval e { s with scope := s.scope.replaceAt outer.length name .inProgress } with
  | ok v t =>
      rw [after_of_ok hr] at hplain' hg
      have hsettled := htracks.settle (Or.inr ⟨v, rfl⟩) hne
      have hvalue : ∃ w, (g.bindings.replace name (.resolved v)).get? name =
          some (.resolved w) := by
        obtain ⟨b, hb⟩ := htracks.exists_get? (hf.mem_keys hu)
        exact ⟨v, by simp [Table.get?_replace, hb]⟩
      rw [outcome_of_ok (settle_ok hr), after_of_ok (settle_ok hr)]
      refine ⟨hplain', .replaceAt hg hsettled, ?_, fun _ _ _ =>
        .replaceAt hg (hsettled.finish fun _ => hvalue)⟩
      rintro _ ⟨⟩
  | error cause t =>
      rw [after_of_error hr] at hplain' hg
      rw [outcome_of_error hr] at hblamed
      rw [outcome_of_error (settle_error hr), after_of_error (settle_error hr)]
      refine ⟨hplain', .replaceAt hg (htracks.settle (Or.inl ⟨e, rfl, he⟩) hne), hblamed, ?_⟩
      rintro _ ⟨⟩

/-- Looking a name up comes upon a mark only where everything marked needs the name. -/
theorem looked_resolveWith (houter : ∀ f ∈ outer, f.HasValues) (heval : Faultless r outer eval)
    {name : String} (hbehind : r.IsBehind marks (.var name)) :
    Ensures (fun s => s.source.IsPlain ∧ s.scope.Tracks r outer marks done)
      (resolveWith eval name) (Looked r outer marks done name) := by
  rintro s ⟨hplain, f, hs, hf⟩
  by_cases hbound : Scope.IsLocal name ∧ ∃ b, f.bindings.get? name = some b
  · obtain ⟨hname, b, hb⟩ := hbound
    have hl : s.scope.lookup name = some (outer.length, b) := by
      simp [Scope.lookup, hs, Scope.lookupIn, hb]
    cases b with
    | unevaluated e =>
        have hrun : resolveWith eval name s = settle eval outer.length name e s :=
          resolveWith_unevaluated hname hl
        have hsettle := looked_settle heval hbehind hplain hs hf hb
        unfold outcome after at hsettle ⊢
        rwa [hrun]
    | inProgress =>
        have hrun : resolveWith eval name s = _ := resolveWith_inProgress hname hl
        rw [outcome_of_error hrun, after_of_error hrun]
        refine ⟨hplain, ⟨f, hs, hf⟩, ?_, ?_⟩
        · rintro _ ⟨⟩
          exact hbehind name (hf.mem_keys hb) (Expr.mem_nodes_self _) name (hf.inProgress hb)
        · rintro _ ⟨⟩
    | resolved v =>
        have hrun : resolveWith eval name s = _ := resolveWith_resolved hname hl
        rw [outcome_of_ok hrun, after_of_ok hrun]
        refine ⟨hplain, ⟨f, hs, hf⟩, ?_, fun _ _ _ => ⟨f, hs, hf.finish fun _ => ⟨v, hb⟩⟩⟩
        rintro _ ⟨⟩
  -- The name is not looked up in frames, or it leads to an ancestor, whose variables have values.
  · have hlookup : Scope.IsLocal name → s.scope.lookup name = Scope.lookupIn name outer := by
      intro hname
      have hnone : f.bindings.get? name = none :=
        Option.eq_none_iff_forall_ne_some.2 fun b hb => hbound ⟨hname, b, hb⟩
      simp [Scope.lookup, hs, Scope.lookupIn, hnone]
    obtain ⟨hafter, hnone⟩ : (resolveWith eval name).after s = s ∧ _ :=
      resolveWith_valued fun hname level b hl =>
        Scope.HasValues.of_lookup (s := ⟨outer⟩) houter hname ((hlookup hname).symm.trans hl)
    rw [hafter]
    refine ⟨hplain, ⟨f, hs, hf⟩, fun n hn => absurd hn (hnone n), fun _ _ hmem =>
      ⟨f, hs, hf.finish fun hname => absurd ⟨hname, hf.exists_get? hmem⟩ hbound⟩⟩

/-- Below frames with values, an expression reports cycles of the rule only.  The induction is on
the budget; the marks are not fixed, since a variable is evaluated with its binding marked. -/
theorem blames_evaluateWithin (houter : ∀ f ∈ outer, f.HasValues) (budget : Nat) :
    Faultless r outer (evaluateWithin ⟨rules, .builtins⟩ limit budget) := by
  induction budget with
  | zero => exact fun _ => blames_throw nofun
  | succ budget ih =>
      intro marks done e hbehind
      refine blames_nested (blames_evaluateNode (fun x hx => ih (hbehind.operand hx)) ?_)
      rintro name rfl s hs
      have hlooked := looked_resolveWith houter ih hbehind s hs
      exact ⟨⟨hlooked.source, hlooked.scope⟩, hlooked.blames⟩

/-- Where all variables have values, an expression reports no cycle. -/
theorem blames_evaluateWithin_hasValues {fs : List Frame} (hfs : ∀ f ∈ fs, f.HasValues)
    (budget : Nat) (e : Expr) :
    Blames (fun scope => scope.frames = fs) (fun _ => False)
      (evaluateWithin ⟨rules, .builtins⟩ limit budget e) := by
  induction budget generalizing e with
  | zero => exact blames_throw nofun
  | succ budget ih =>
      refine blames_nested (blames_evaluateNode (fun x _ => ih x) ?_)
      rintro name - s ⟨hplain, hs⟩
      obtain ⟨hafter, hnone⟩ :
          (resolveWith (evaluateWithin ⟨rules, .builtins⟩ limit budget) name).after s = s ∧ _ :=
        resolveWith_valued fun hname level b hl =>
          Scope.HasValues.of_lookup (fun f hf => hfs f (hs ▸ hf)) hname hl
      rw [hafter]
      exact ⟨⟨hplain, hs⟩, hnone⟩

/-! ## Rules -/

/-- The variables of a rule were evaluated, as far as none of them failed: what holds then. -/
structure Forced (r : Rule) (outer : List Frame) (done names : List String)
    (outcome : Except Error Unit) (s : Session) : Prop where
  source : s.source.IsPlain
  blames : ∀ n, outcome = .error (.circularDependency n) → r.OnCycle n
  scope : ∃ done', done ⊆ done' ∧ (outcome = .ok () → names ⊆ done') ∧
    s.scope.Tracks r outer [] done'

/-- The induction is on the names; those that are done stay done while the others follow. -/
theorem forced_forceAll (houter : ∀ f ∈ outer, f.HasValues) (heval : Faultless r outer eval)
    {names : List String} (hnames : names ⊆ r.vars.keys) :
    Ensures (fun s => s.source.IsPlain ∧ s.scope.Tracks r outer [] done)
      (forceAll eval names) (Forced r outer done names) := by
  induction names generalizing done with
  | nil => exact fun s ⟨hplain, hs⟩ => ⟨hplain, nofun, done, fun _ h => h, fun _ => nofun, hs⟩
  | cons name rest ih =>
      obtain ⟨hname, hrest⟩ := List.cons_subset.1 hnames
      refine ensures_bind (looked_resolveWith houter heval (.nil r _)) (fun v s hlooked => ?_) ?_
      · obtain ⟨hplain, hblames, done', hsub, hall, hscope⟩ :=
          ih hrest s ⟨hlooked.source, hlooked.finished v rfl hname⟩
        obtain ⟨hmem, hdone⟩ := List.cons_subset.1 hsub
        exact ⟨hplain, hblames, done', hdone,
          fun hok => List.cons_subset.2 ⟨hmem, hall hok⟩, hscope⟩
      · rintro e s hlooked
        exact ⟨hlooked.source, fun n hn => hlooked.blames n (congrArg _ (Except.error.inj hn)),
          done, fun _ h => h, nofun, hlooked.scope⟩

end Environment

/-- The failure is no circular dependency, or it is one of a rule below this one, and its name is
that of a variable of that rule that needs itself. -/
def RuleSet.Justifies (rules : RuleSet) (i : RuleId) (f : Failure) : Prop :=
  ∀ n, f.error = .circularDependency n → ∃ j r, TransGen rules.IsChild i j ∧
    rules.rules[j]? = some r ∧ f.rule = rules.idAt? j ∧ r.OnCycle n

/-- The variables have values, and what was recorded beyond the origin is justified. -/
structure Session.IsClear (rules : RuleSet) (i : RuleId) (origin : List Failure) (s : Session) :
    Prop where
  source : s.source.IsPlain
  scope : s.scope.HasValues
  failures : ∃ new, s.effects.failures = origin ++ new ∧ ∀ f ∈ new, rules.Justifies i f

namespace Session.IsClear

variable {rules : RuleSet} {i c : RuleId} {origin : List Failure} {s t : Session}

theorem start (hsource : s.source.IsPlain) (hscope : s.scope.HasValues) :
    s.IsClear rules i s.effects.failures :=
  ⟨hsource, hscope, [], (List.append_nil _).symm, List.forall_mem_nil _⟩

/-- Nothing else was recorded. -/
theorem next (h : s.IsClear rules i origin) (hsource : t.source.IsPlain)
    (hscope : t.scope.HasValues) (hfailures : s.SameFailures t) : t.IsClear rules i origin := by
  obtain ⟨new, hnew, hjustified⟩ := h.failures
  exact ⟨hsource, hscope, new, hfailures.trans hnew, hjustified⟩

/-- What is recorded next is justified. -/
theorem record (h : s.IsClear rules i origin) {rule : Option RuleId} {e : Error}
    (hf : rules.Justifies i ⟨rule.bind rules.idAt?, e⟩) :
    ((Step.recordFailure rules rule e).after s).IsClear rules i origin := by
  obtain ⟨new, hnew, hjustified⟩ := h.failures
  refine ⟨h.source, h.scope, new ++ [⟨rule.bind rules.idAt?, e⟩], ?_, fun f hmem => ?_⟩
  · show s.effects.failures ++ _ = _
    rw [hnew, List.append_assoc]
  · rcases List.mem_append.1 hmem with hmem | hmem
    · exact hjustified f hmem
    · exact List.mem_singleton.1 hmem ▸ hf

/-- What is below a child is below its parent. -/
theorem child (h : s.IsClear rules i origin) (hc : rules.IsChild i c)
    (ht : t.IsClear rules c s.effects.failures) : t.IsClear rules i origin := by
  obtain ⟨new, hnew, hjustified⟩ := h.failures
  obtain ⟨more, hmore, hbelow⟩ := ht.failures
  refine ⟨ht.source, ht.scope, new ++ more, by rw [hmore, hnew, List.append_assoc], fun f hf => ?_⟩
  rcases List.mem_append.1 hf with hf | hf
  · exact hjustified f hf
  · intro n hn
    obtain ⟨j, r, hj, hr⟩ := hbelow f hf n hn
    exact ⟨j, r, .head hc hj, hr⟩

/-- A frame less has no fewer values. -/
theorem left (h : s.IsClear rules i origin) : s.left.IsClear rules i origin :=
  ⟨h.source, fun f hf => h.scope f (List.mem_of_mem_tail hf), h.failures⟩

end Session.IsClear

namespace Environment

open Step

variable {rules : RuleSet} {limit budget : Nat} {i : RuleId} {origin : List Failure}

/-- A rule reports cycles of its own variables only, and what is recorded below it is justified. -/
structure Honest (rules : RuleSet) (i : RuleId) (s : Session) (t : Step (Option Match)) : Prop where
  own : ∀ n, t.outcome s = .error (.circularDependency n) →
    ∃ r, rules.rules[i]? = some r ∧ r.OnCycle n
  below : (t.after s).IsClear rules i s.effects.failures

/-- Once all variables have values, actions report no circular dependency. -/
theorem maintains_runActions_isClear (limit budget : Nat) (as : List RuleAction) :
    Maintains (Session.IsClear rules i origin)
      (runActions ⟨rules, .builtins⟩ (evaluateWithin ⟨rules, .builtins⟩ limit budget) as) := by
  induction as with
  | nil => exact maintains_pure ()
  | cons a rest ih =>
      intro s hs
      have heval : Blames (fun scope => scope.frames = s.scope.frames) (fun _ => False)
          (evaluateWithin ⟨rules, .builtins⟩ limit budget a.expr) :=
        blames_evaluateWithin_hasValues hs.scope budget a.expr
      have hsame : s.SameFailures
          ((evaluateWithin ⟨rules, .builtins⟩ limit budget a.expr).after s) :=
        sameFailures_evaluateWithin Registry.respects_builtins_sameFailures budget a.expr s
      obtain ⟨⟨hplain, hframes⟩, hnone⟩ := heval s ⟨hs.source, rfl⟩
      have hclear := hs.next hplain (fun f hf => hs.scope f (hframes ▸ hf)) hsame
      cases hr : evaluateWithin ⟨rules, .builtins⟩ limit budget a.expr s with
      | ok v t =>
          rw [after_of_ok hr] at hclear
          have hrun : runActions ⟨rules, .builtins⟩ _ (a :: rest) s = _ :=
            runActions_ok_cons hr rest
          by_cases hstop : a.mode = .stop
          · rw [if_pos hstop] at hrun
            rwa [after_of_ok hrun]
          · rw [if_neg hstop] at hrun
            unfold after
            rw [hrun]
            exact ih t hclear
      | error e t =>
          rw [after_of_error hr] at hclear
          rw [outcome_of_error hr] at hnone
          unfold after
          rw [runActions_error_cons hr]
          refine ih _ ?_
          unfold noted
          split
          · exact hclear
          · exact hclear.record fun n hn => (hnone n (congrArg _ hn)).elim

/-- What a child reports, itself or below it, is justified for its parent. -/
theorem maintains_runChildren_isClear {child : RuleId → Step (Option Match)} {cs : List RuleId}
    (hcs : ∀ c ∈ cs, rules.IsChild i c)
    (hchild : ∀ c (s : Session), s.source.IsPlain → s.scope.HasValues →
      Honest rules c s (child c)) :
    Maintains (Session.IsClear rules i origin) (runChildren ⟨rules, .builtins⟩ child cs) := by
  induction cs with
  | nil => exact maintains_pure ([], [])
  | cons c rest ih =>
      rw [List.forall_mem_cons] at hcs
      intro s hs
      have hhonest := hchild c s hs.source hs.scope
      have hclear := hs.child hcs.1 hhonest.below
      rw [after_runChildren_cons]
      refine ih hcs.2 _ ?_
      unfold afterChild
      cases ho : (child c).outcome s with
      | ok found => exact hclear
      | error e =>
          refine hclear.record fun n hn => ?_
          obtain ⟨r, hr, hcycle⟩ := hhonest.own n (ho.trans (congrArg _ hn))
          exact ⟨c, r, .single hcs.1, hr, rfl, hcycle⟩

/-- A rule that leaves before its actions has recorded nothing. -/
theorem isClear_left {t : Session} (houter : ∀ f ∈ outer, f.HasValues) (hplain : t.source.IsPlain)
    (ht : t.scope.Tracks r outer marks done) (hfailures : t.effects.failures = origin) :
    t.left.IsClear rules i origin := by
  obtain ⟨f, hf, -⟩ := ht
  refine ⟨hplain, fun g hg => houter g ?_, [], ?_, List.forall_mem_nil _⟩
  · rwa [Session.left, Scope.pop, hf, List.tail_cons] at hg
  · exact hfailures.trans (List.append_nil _).symm

/-- Conditions and variables record nothing. -/
theorem sameFailures_beforeActions (rules : RuleSet) (limit budget : Nat) (r : Rule)
    (origin : Session) :
    Maintains origin.SameFailures
        (allHold (evaluateWithin ⟨rules, .builtins⟩ limit budget) r.conditions) ∧
      Maintains origin.SameFailures
        (forceAll (evaluateWithin ⟨rules, .builtins⟩ limit budget) r.vars.keys) := by
  have heval : ∀ e, Maintains origin.SameFailures
      (evaluateWithin ⟨rules, .builtins⟩ limit budget e) := fun e s hs =>
    (sameFailures_evaluateWithin Registry.respects_builtins_sameFailures budget e s).trans hs
  refine ⟨(composable_maintains _).allHold fun c _ => heval c,
    (composable_maintains _).forceAll (fun name => ?_) _⟩
  exact maintains_resolveWith fun s level e hs _ _ =>
    maintains_settle (fun _ _ h => h) (heval e) level name s hs

/-- From the first action of a rule to its last child nothing fails. -/
theorem clear_runMatched (limit budget : Nat) (hi : rules.rules[i]? = some r)
    {child : RuleId → Step (Option Match)}
    (hchild : ∀ c (s : Session), s.source.IsPlain → s.scope.HasValues →
      Honest rules c s (child c)) :
    Ensures (Session.IsClear rules i origin)
      (runMatched ⟨rules, .builtins⟩ (evaluateWithin ⟨rules, .builtins⟩ limit budget) child i r)
      fun outcome s => (∃ m, outcome = .ok m) ∧ s.IsClear rules i origin := by
  intro s hs
  let acted := (runActions ⟨rules, .builtins⟩ (evaluateWithin ⟨rules, .builtins⟩ limit budget)
    r.actions).after s
  have hacted : acted.IsClear rules i origin :=
    maintains_runActions_isClear limit budget r.actions s hs
  obtain ⟨found, t, hchildren⟩ := runChildren_ok ⟨rules, .builtins⟩ child r.children acted
  have hdone := maintains_runChildren_isClear (fun c hc => ⟨r, hi, hc⟩) hchild acted hacted
  rw [after_of_ok hchildren] at hdone
  rw [outcome_of_ok (runMatched_of_ok hchildren), after_of_ok (runMatched_of_ok hchildren)]
  exact ⟨⟨_, rfl⟩, hdone⟩

/-- How a rule ends, before its frame is left. -/
structure Finishes (rules : RuleSet) (i : RuleId) (r : Rule) (origin : List Failure)
    (outcome : Except Error (Option Match)) (s : Session) : Prop where
  own : ∀ n, outcome = .error (.circularDependency n) → r.OnCycle n
  below : s.left.IsClear rules i origin

/-- Once all variables were evaluated, all frames have values. -/
theorem Forced.isClear {s : Session} (h : Forced r outer done r.vars.keys (.ok ()) s)
    (houter : ∀ f ∈ outer, f.HasValues) (hsame : s.effects.failures = origin) :
    s.IsClear rules i origin := by
  obtain ⟨done', -, hall, f, hf, htracks⟩ := h.scope
  refine ⟨h.source, ?_, [], hsame.trans (List.append_nil _).symm, List.forall_mem_nil _⟩
  rw [Scope.HasValues, hf, List.forall_mem_cons]
  exact ⟨htracks.hasValues (hall rfl), houter⟩

/-- From the start of a rule to its end: conditions, variables, actions and children. -/
theorem finishes_runRule (limit budget : Nat) (hi : rules.rules[i]? = some r)
    {child : RuleId → Step (Option Match)}
    (hchild : ∀ c (s : Session), s.source.IsPlain → s.scope.HasValues →
      Honest rules c s (child c))
    (houter : ∀ f ∈ outer, f.HasValues) (origin : Session) :
    Ensures (fun s => (s.source.IsPlain ∧ s.scope.Tracks r outer [] []) ∧ origin.SameFailures s)
      (runRule ⟨rules, .builtins⟩ (evaluateWithin ⟨rules, .builtins⟩ limit budget) child i r)
      (Finishes rules i r origin.effects.failures) := by
  have heval : Faultless r outer (evaluateWithin ⟨rules, .builtins⟩ limit budget) :=
    blames_evaluateWithin houter budget
  obtain ⟨hheld, hforced⟩ := sameFailures_beforeActions rules limit budget r origin
  refine ensures_bind (ensures_and (blames_allHold fun c _ => heval (.nil r c)) hheld)
    (fun held => ?_) ?_
  · cases held with
    | false =>
        exact ensures_pure fun s ⟨⟨⟨hplain, ht⟩, _⟩, hsame⟩ =>
          ⟨nofun, isClear_left houter hplain ht hsame⟩
    | true =>
        have hvars : Ensures _ _ fun outcome s =>
            Forced r outer [] r.vars.keys outcome s ∧ origin.SameFailures s :=
          ensures_and (forced_forceAll houter heval fun _ h => h) hforced
        rintro s ⟨⟨hs, -⟩, hsame⟩
        refine ensures_bind hvars (fun _ => ?_) ?_ s ⟨hs, hsame⟩
        · rintro s ⟨hs, hsame⟩
          refine ensures_bind (clear_runMatched limit budget hi hchild) (fun m => ?_) ?_ s
            (hs.isClear houter hsame)
          · exact ensures_pure fun s ⟨_, hdone⟩ => ⟨nofun, hdone.left⟩
          · rintro e s ⟨⟨m, hm⟩, -⟩
            cases hm
        · rintro e s ⟨⟨hplain, hblames, done, -, -, ht⟩, hsame⟩
          exact ⟨fun n hn => hblames n (congrArg _ (Except.error.inj hn)),
            isClear_left houter hplain ht hsame⟩
  · rintro e s ⟨⟨⟨hplain, ht⟩, hblames⟩, hsame⟩
    exact ⟨fun n hn => hblames n (congrArg _ (Except.error.inj hn)),
      isClear_left houter hplain ht hsame⟩

/-- The induction is on the budget: a rule is evaluated with the evaluator of its children. -/
theorem honest_evaluateRuleWithin (rules : RuleSet) (limit budget : Nat) (i : RuleId) (s : Session)
    (hplain : s.source.IsPlain) (hvalues : s.scope.HasValues) :
    Honest rules i s (evaluateRuleWithin ⟨rules, .builtins⟩ limit budget i) := by
  induction budget generalizing i s with
  | zero =>
      refine ⟨?_, .start hplain hvalues⟩
      rintro _ ⟨⟩
  | succ budget ih =>
      cases hi : rules.rules[i]? with
      | none =>
          have hrun : evaluateRuleWithin ⟨rules, .builtins⟩ limit (budget + 1) i s =
              .error (.internal "no such rule") s := by
            simp only [evaluateRuleWithin, hi]
            rfl
          constructor
          · rw [outcome_of_error hrun]
            rintro _ ⟨⟩
          · rw [after_of_error hrun]
            exact .start hplain hvalues
      | some r =>
          by_cases hroom : s.depth < limit
          · have hi' : (Environment.mk rules .builtins).rules.rules[i]? = some r := hi
            obtain ⟨houtcome, hafter⟩ := evaluateRuleWithin_entered budget hi' hroom
            have hstart : (s.entered i r).scope.Tracks r s.scope.frames [] [] :=
              ⟨r.frame i, congrArg Scope.frames (s.scope.push_vars i r), .start r i⟩
            have hplain' : (s.entered i r).source.IsPlain := hplain
            obtain ⟨hcycle, hbelow⟩ := finishes_runRule limit budget hi ih hvalues s _
              ⟨⟨hplain', hstart⟩, rfl⟩
            constructor
            · rw [houtcome]
              exact fun n hn => ⟨r, hi, hcycle n hn⟩
            · rw [hafter]
              exact hbelow
          · have hrun : evaluateRuleWithin ⟨rules, .builtins⟩ limit (budget + 1) i s = _ :=
              (congrFun (evaluateRuleWithin_succ ⟨rules, .builtins⟩ limit budget hi) s).trans
                (nested_of_le (Nat.not_lt.1 hroom) _)
            constructor
            · rw [outcome_of_error hrun]
              rintro _ ⟨⟩
            · rw [after_of_error hrun]
              exact .start hplain hvalues

/--
**Circular dependencies are reported exactly.**  Let the current file fail for reasons of its own,
and let the variables of all ancestors have values.  In the frame of a rule none of whose variables
is just being evaluated, resolving a name or evaluating an expression reports a circular dependency
only for a variable of the rule that needs itself, and leaves such a frame behind; so the same holds
of whatever is resolved or evaluated next.  Evaluating a rule fails with a circular dependency only
for such a variable, and not at all if none of its variables needs itself.  What is recorded
meanwhile comes from rules further down: each circular dependency from the one with the recorded
id, for a variable of that rule that needs itself.
-/
theorem circularDependency_onCycle (rules : RuleSet) (limit : Nat) (s : Session) :
    (∀ (r : Rule) (outer : List Frame), s.Rests r outer →
      (∀ name, ((resolve ⟨rules, .builtins⟩ limit name).after s).Rests r outer ∧
        ∀ n, (resolve ⟨rules, .builtins⟩ limit name).outcome s = .error (.circularDependency n) →
          r.OnCycle n) ∧
      ∀ e, ((evaluate ⟨rules, .builtins⟩ limit e).after s).Rests r outer ∧
        ∀ n, (evaluate ⟨rules, .builtins⟩ limit e).outcome s = .error (.circularDependency n) →
          r.OnCycle n) ∧
    (s.source.IsPlain → s.scope.HasValues → ∀ i,
      (∀ n, (evaluateRule ⟨rules, .builtins⟩ limit i).outcome s = .error (.circularDependency n) →
        ∃ r, rules.rules[i]? = some r ∧ r.OnCycle n) ∧
      (∀ r, rules.rules[i]? = some r → (∀ x, ¬ r.OnCycle x) →
        ∀ n, (evaluateRule ⟨rules, .builtins⟩ limit i).outcome s ≠
          .error (.circularDependency n)) ∧
      ∃ new, ((evaluateRule ⟨rules, .builtins⟩ limit i).after s).effects.failures =
          s.effects.failures ++ new ∧
        ∀ f ∈ new, rules.Justifies i f) := by
  refine ⟨fun r outer ⟨hplain, houter, hs⟩ => ?_, fun hplain hvalues i => ?_⟩
  · have heval : Faultless r outer (evaluateWithin ⟨rules, .builtins⟩ limit (s.room limit)) :=
      blames_evaluateWithin houter _
    refine ⟨fun name => ?_, fun e => ?_⟩
    · have hlooked := looked_resolveWith houter heval (.nil r (.var name)) s ⟨hplain, hs⟩
      exact ⟨⟨hlooked.source, houter, hlooked.scope⟩, hlooked.blames⟩
    · obtain ⟨⟨hplain', hs'⟩, hblamed⟩ := heval (.nil r e) s ⟨hplain, hs⟩
      exact ⟨⟨hplain', houter, hs'⟩, hblamed⟩
  · have hhonest := honest_evaluateRuleWithin rules limit (s.room limit) i s hplain hvalues
    refine ⟨hhonest.own, fun r hr hacyclic n hn => ?_, hhonest.below.failures⟩
    obtain ⟨q, hq, hcycle⟩ := hhonest.own n hn
    cases hr.symm.trans hq
    exact hacyclic n hcycle

/-- Two variables that need each other, one of them named like a variable of the ancestor. -/
def mutualRule : Rule :=
  { Rule.new "a" "r" with
    vars := Table.ofList [("v", .unary .not (.var "w")), ("w", .unary .not (.var "v"))]
    conditions := [.var "v"] }

/-- The rule fails since its own variable needs itself; that of the ancestor is hidden. -/
theorem circularDependency_onCycle_mutual :
    let rules : RuleSet := ⟨#[mutualRule], ∅, [0], ∅⟩
    let s : Session := { Session.start ⟨∅, []⟩ (.ofFile "f" []) ∅ none with
      scope := ⟨[⟨7, Table.ofList [("v", .resolved (.bool true))]⟩]⟩ }
    s.source.IsPlain ∧ s.scope.AllResolved ∧
      (evaluateRule ⟨rules, .builtins⟩ depthLimit 0).outcome s = .error (.circularDependency "v") ∧
      ∃ r, rules.rules[(0 : RuleId)]? = some r ∧ r.OnCycle "v" := by
  intro rules s
  have hplain : s.source.IsPlain := Source.isPlain_claiming "f" 0 []
  have hresolved : s.scope.AllResolved := by
    intro f hf x hx
    cases List.mem_singleton.1 hf
    cases List.mem_singleton.1 hx
    exact ⟨_, rfl⟩
  have hfails : (evaluateRule ⟨rules, .builtins⟩ depthLimit 0).outcome s =
      .error (.circularDependency "v") := rfl
  exact ⟨hplain, hresolved, hfails,
    ((circularDependency_onCycle rules depthLimit s).2 hplain hresolved.hasValues 0).1 "v" hfails⟩

end Environment

end RuleScan
