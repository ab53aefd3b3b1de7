import RuleScan.Proofs.Evaluation.Avoiding
import RuleScan.Proofs.Evaluation.MatchTree
import RuleScan.Proofs.Evaluation.Unfolding
import RuleScan.Proofs.Reading.Affording

/-!
# Accepted rules stay within the levels of evaluation

The levels of one count are entered for different reasons: for every rule on the way down from a
root, and then for every node on the way down into an expression.  A variable that has yet to be
evaluated adds its own expression to those in which it stands, so nothing is said of expressions
that need variables of their own rule.  What is left adds up.  An instance of a rule is evaluated
as many levels deep as its rule has ancestors, the variables of the ancestors have values by then,
and no expression of an accepted text is higher than the limit of nodes.  With twice as many levels
as nodes, the first half is left to the rules.

## Main results

* `avoids_evaluateWithin` — an expression whose names have values needs as many levels as it is
  high.
* `Site.avoids_evaluatePart` — so does a part of a rule that needs no variable of its rule.
* `InstanceAt.exists_site` — an instance is evaluated below frames whose variables have values, as
  deep as its rule has ancestors.
* `RuleSet.parse_withinLevels` — no part of this kind is nested too deep.
-/

namespace RuleScan

open Step

/-- The expression mentions no variable that the rule declares. -/
def Rule.IsForeign (r : Rule) (e : Expr) : Prop := ∀ name ∈ r.vars.keys, .var name ∉ e.nodes

/-! ## Expressions -/

/-- The current file fails for reasons of its own, and the session is in the scope and on the
level. -/
structure Session.IsAt (around : Scope) (level : Nat) (s : Session) : Prop where
  source : s.source.IsCalm
  scope : s.scope = around
  depth : s.depth = level

/-- The evaluator alone says that it is nested too deep, whatever the place. -/
theorem Step.watches_of_isCalm {K : Session → Prop} (hsource : ∀ s, K s → s.source.IsCalm)
    (hspared : Builtin.Spared K) : Watches K fun e => e.isReserved = true where
  reserved h := h
  read hs _ _ _ hread := ne_true_of_eq_false (hsource _ hs hread)
  spared := hspared

namespace Environment

variable {rules : RuleSet} {limit level budget : Nat} {e : Expr} {around : Scope}

/-- Looking the names up enters no level.  The induction is on the budget: the operands are lower
than the expression, and their names are among its names. -/
theorem avoids_evaluateWithin
    (hvalues : ∀ name, .var name ∈ e.nodes → Scope.IsLocal name → ∀ l b,
      around.lookup name = some (l, b) → ∃ v, b = .resolved v)
    (hheight : e.height ≤ budget) (hroom : level + budget ≤ limit) :
    Avoids (Session.IsAt around level) (fun e => e.isReserved = true)
      (evaluateWithin ⟨rules, .builtins⟩ limit budget e) := by
  induction budget generalizing e level with
  | zero => exact absurd hheight (Nat.not_le.2 e.height_pos)
  | succ budget ih =>
      have hw : Watches (Session.IsAt around (level + 1)) fun e => e.isReserved = true :=
        watches_of_isCalm (fun _ hs => hs.source) fun _ _ _ _ _ _ hs =>
          ⟨hs.source, hs.scope, hs.depth⟩
      have hoperand : ∀ x ∈ e.operands, Avoids (Session.IsAt around (level + 1)) _
          (evaluateWithin ⟨rules, .builtins⟩ limit budget x) := fun x hx =>
        ih (fun name hname => hvalues name (Expr.nodes_subset_of_mem_operands hx hname))
          (Nat.le_of_lt_succ (Nat.lt_of_lt_of_le (Expr.height_lt_of_mem_operands hx) hheight))
          (by omega)
      refine avoids_nested (hw.evaluateNode hoperand ?_) ?_ ?_ ?_
      · rintro name rfl s hs
        obtain ⟨hafter, hreserved⟩ :
            (resolveWith (evaluateWithin ⟨rules, .builtins⟩ limit budget) name).after s = s ∧ _ :=
          resolveWith_of_valued fun hname l b hl =>
            hvalues name (Expr.mem_nodes_self _) hname l b (hs.scope ▸ hl)
        rw [hafter]
        exact ⟨hs, fun e he => ne_true_of_eq_false (hreserved e he)⟩
      · intro s hs hdeep
        have hdepth := hs.depth
        omega
      · exact fun s hs => ⟨hs.source, hs.scope, congrArg (· + 1) hs.depth⟩
      · exact fun s hs => ⟨hs.source, hs.scope, congrArg (· - 1) hs.depth⟩

end Environment

/-! ## Parts of a rule -/

namespace Site

/-- A place below some frames where built-in operators are called, and where the current file fails
for reasons of its own. -/
def calm (rules : RuleSet) (limit : Nat) (frames : List Frame) : Site :=
  ⟨⟨rules, .builtins⟩, limit, fun _ source => source.IsCalm, frames⟩

variable {rules : RuleSet} {limit level : Nat} {frames : List Frame} {f g : Frame} {i : RuleId}
  {r : Rule} {e : Expr} {s t : Session} {xs : List Event}

/-- The frame of the rule is as far as evaluation has brought it, on a level. -/
def On (σ : Site) (f : Frame) (level : Nat) (s : Session) : Prop :=
  σ.Reached f s ∧ s.depth = level

/-- The session is at the place, on a level. -/
def At (σ : Site) (level : Nat) (s : Session) : Prop := σ.Fits s ∧ s.depth = level

/-- With the built-in operators an evaluation comes back to its level. -/
theorem follows_builtins : Environment.Invariant ⟨rules, .builtins⟩ Session.Follows :=
  Environment.follows_invariant Registry.respects_builtins_follows

section Forced

variable (hσ : (calm rules limit frames).IsForced)

include hσ

/-- The names that a foreign expression mentions lead to the frames around that of the rule. -/
theorem resolved_of_isForeign (hframes : s.scope.frames = g :: frames)
    (hkeys : g.bindings.keys = r.vars.keys) (he : r.IsForeign e) {name : String}
    (hname : .var name ∈ e.nodes) (hlocal : Scope.IsLocal name) {l : Nat} {b : Binding}
    (hl : s.scope.lookup name = some (l, b)) : ∃ v, b = .resolved v := by
  have hnone : g.bindings.get? name = none := by
    rw [Table.get?_eq_none_iff, hkeys]
    exact fun hmem => he name hmem hname
  rw [Scope.lookup, hframes, Scope.lookupIn, hnone] at hl
  obtain ⟨f, hf, hget⟩ := Scope.exists_of_lookupIn hl
  exact (hσ f hf name b hget).1 hlocal

/-- A foreign expression finds the levels it needs. -/
theorem not_isReserved_of_evaluate (hsource : s.source.IsCalm)
    (hframes : s.scope.frames = g :: frames) (hkeys : g.bindings.keys = r.vars.keys)
    (he : r.IsForeign e) (hroom : s.depth + e.height ≤ limit) {budget : Nat}
    (hbudget : budget = s.room limit) {cause : Error}
    (h : (Environment.evaluateWithin ⟨rules, .builtins⟩ limit budget e).outcome s =
      .error cause) : ¬ cause.isReserved = true := by
  unfold Session.room at hbudget
  exact (Environment.avoids_evaluateWithin
    (fun name hname hlocal l b hl => resolved_of_isForeign hσ hframes hkeys he hname hlocal hl)
    (by omega) (by omega) s ⟨hsource, rfl, rfl⟩).2 cause h

theorem maintains_evaluate (e : Expr) :
    Maintains ((calm rules limit frames).On f level)
      (Environment.evaluate ⟨rules, .builtins⟩ limit e) := by
  rintro s ⟨hreached, hdepth⟩
  exact ⟨maintains_evaluateWithin hσ (Registry.isTame_builtins _) (s.room limit) e f s hreached,
    (follows_builtins.evaluate limit e s).depth.trans hdepth⟩

theorem maintains_resolve (name : String) :
    Maintains ((calm rules limit frames).On f level)
      (Environment.resolve ⟨rules, .builtins⟩ limit name) := by
  rintro s ⟨hreached, hdepth⟩
  exact ⟨maintains_resolveWith hσ
      (maintains_evaluateWithin hσ (Registry.isTame_builtins _) (s.room limit)) name f s hreached,
    (follows_builtins.resolve limit name s).depth.trans hdepth⟩

/-- Any part of the rule itself is evaluated in its frame and comes back to its level. -/
theorem maintains_evaluatePart {p : Part} (hp : p ∈ r.ownParts) :
    Maintains ((calm rules limit frames).On f level)
      (Environment.evaluatePart ⟨rules, .builtins⟩ limit p) := by
  cases p with
  | condition e =>
      exact maintains_bind (maintains_evaluate hσ e) fun _ =>
        maintains_bind (maintains_ofValue _) fun _ => maintains_pure _
  | var name => exact maintains_bind (maintains_resolve hσ name) fun _ => maintains_pure _
  | action a => exact maintains_bind (maintains_evaluate hσ a.expr) fun _ => maintains_pure _
  | child c => exact absurd rfl (Rule.ne_child_of_mem_ownParts hp c)

/-- A variable of the rule has a value already, or its expression is evaluated with the variable
marked, which a foreign expression does not notice. -/
theorem not_isReserved_of_resolve {name : String}
    (hs : (calm rules limit frames).Reached (r.frame i) s)
    (hname : r.vars.get? name = some e) (he : r.IsForeign e) (hroom : s.depth + e.height ≤ limit)
    {cause : Error}
    (h : (Environment.resolve ⟨rules, .builtins⟩ limit name).outcome s = .error cause) :
    ¬ cause.isReserved = true := by
  obtain ⟨g, hadvances, hfits⟩ := reached_iff.1 hs
  have hkeys : g.bindings.keys = r.vars.keys := hadvances.names.trans (Table.keys_mapValues _ _)
  let eval := Environment.evaluateWithin ⟨rules, .builtins⟩ limit (s.room limit)
  have hrun : (Environment.resolveWith eval name).outcome s = .error cause := h
  by_cases hlocal : Scope.IsLocal name
  · have hstart : (r.frame i).bindings.get? name = some (.unevaluated e) := by
      rw [Rule.get?_frame, hname, Option.map_some]
    have hlookup : ∀ {b}, g.bindings.get? name = some b →
        s.scope.lookup name = some (frames.length, b) := fun hb => by
      rw [Scope.lookup, hfits.2]
      simp [inside, Scope.lookupIn, hb, calm]
    obtain hsame | ⟨-, -, v, -, hv, -⟩ := hadvances.bindings hstart
    · have hsettle : Environment.resolveWith eval name s =
          Environment.settle eval frames.length name e s :=
        Environment.resolveWith_unevaluated hlocal (hlookup hsame)
      have hmarked := hfits.replaceAt name .inProgress
      cases hr : eval e { s with scope := s.scope.replaceAt frames.length name .inProgress } with
      | ok v u =>
          rw [outcome_of_ok (hsettle.trans (Environment.settle_ok hr))] at hrun
          cases hrun
      | error cause' u =>
          rw [outcome_of_error (hsettle.trans (Environment.settle_error hr))] at hrun
          cases hrun
          exact not_isReserved_of_evaluate hσ hmarked.1 hmarked.2
            ((Table.keys_replace _ _ _).trans hkeys) he hroom rfl (outcome_of_error hr)
    · rw [outcome_of_ok (Environment.resolveWith_resolved hlocal (hlookup hv))] at hrun
      cases hrun
  · exact ne_true_of_eq_false
      ((Environment.resolveWith_of_valued fun h => absurd h hlocal).2 cause hrun)

/-- A part of the rule that needs no variable of the rule finds the levels it needs. -/
theorem avoids_evaluatePart {p : Part} (hp : p.expr? r = some e) (he : r.IsForeign e)
    (hroom : level + e.height ≤ limit) :
    Avoids ((calm rules limit frames).On (r.frame i) level) (fun e => e.isReserved = true)
      (Environment.evaluatePart ⟨rules, .builtins⟩ limit p) := by
  have hw : Watches ((calm rules limit frames).On (r.frame i) level) fun e => e.isReserved = true :=
    watches_of_isCalm (fun _ hs => hs.1.1) fun _ _ _ _ _ _ hs => hs
  have hevaluate : Avoids ((calm rules limit frames).On (r.frame i) level) _
      (Environment.evaluate ⟨rules, .builtins⟩ limit e) :=
    avoids_of_maintains (maintains_evaluate hσ e) fun s ⟨hreached, hdepth⟩ cause h => by
      obtain ⟨g, hadvances, hfits⟩ := reached_iff.1 hreached
      exact not_isReserved_of_evaluate hσ hfits.1 hfits.2
        (hadvances.names.trans (Table.keys_mapValues _ _)) he (hdepth ▸ hroom) rfl h
  cases p with
  | condition c =>
      cases hp
      exact avoids_bind hevaluate fun _ => avoids_bind (hw.ofValue _) fun _ => avoids_pure _
  | var name =>
      refine avoids_bind (avoids_of_maintains (maintains_resolve hσ name) ?_) fun _ => avoids_pure _
      exact fun s ⟨hreached, hdepth⟩ cause h =>
        not_isReserved_of_resolve hσ hreached hp he (hdepth ▸ hroom) h
  | action a =>
      cases hp
      exact avoids_bind hevaluate fun _ => avoids_pure _
  | child c => cases hp

/-! ## Instances -/

/-- The parts of the rule itself are evaluated in its frame, one after the other. -/
theorem happens_own (h : Environment.Happens ⟨rules, .builtins⟩ limit r s xs t)
    (hown : ∀ x ∈ xs, x.part ∈ r.ownParts) (hs : (calm rules limit frames).On f level s) :
    (calm rules limit frames).On f level t ∧ ∀ x ∈ xs, ∃ u,
      (calm rules limit frames).On f level u ∧
      (Environment.evaluatePart ⟨rules, .builtins⟩ limit x.part).outcome u = x.outcome :=
  h.maintains hs fun x hx s hs => maintains_evaluatePart hσ (hown x hx) s hs

/-- Children are evaluated one after the other below frames that stay as they are. -/
theorem happens_children (h : Environment.Happens ⟨rules, .builtins⟩ limit r s xs t)
    (hchildren : ∀ x ∈ xs, ∃ c, x.part = .child c)
    (hs : (calm rules limit frames).At level s) : (calm rules limit frames).At level t := by
  refine (h.maintains hs fun x hx s ⟨hfits, hdepth⟩ => ?_).1
  obtain ⟨c, hc⟩ := hchildren x hx
  have hfollows : s.Follows ((Environment.evaluatePart ⟨rules, .builtins⟩ limit x.part).after s) :=
    Environment.follows_evaluatePart Registry.respects_builtins_follows x.part s
  refine ⟨?_, hfollows.depth.trans hdepth⟩
  rw [hc]
  refine maintains_bind (P := (calm rules limit frames).Fits) (fun s hs => ?_)
    (fun _ => maintains_pure _) s hfits
  exact (ensures_evaluateRuleWithin hσ (Registry.isTame_builtins _) (s.room limit) c s hs).1

/-- Where a part of an instance needs no variable of its rule, and there are as many levels left
as its expression is high, it does not fail by what is reserved to the evaluator. -/
theorem not_isReserved_of_unfolds (hs : (calm rules limit frames).Fits s)
    (h : Environment.Unfolds ⟨rules, .builtins⟩ limit i r s xs) {x : Event} (hx : x ∈ xs)
    (hp : x.part.expr? r = some e) (he : r.IsForeign e)
    (hroom : e ∈ r.exprs → s.depth + 1 + e.height ≤ limit) {cause : Error}
    (hcause : x.outcome = .error cause) : ¬ cause.isReserved = true := by
  obtain ⟨own, visited, rfl, hown, hvisited⟩ := h.course.split
  have hmem : x ∈ own := by
    refine (List.mem_append.1 hx).resolve_right fun hx => ?_
    obtain rfl | ⟨hparts, -⟩ := hvisited
    · cases hx
    · obtain ⟨c, -, hc⟩ := List.mem_map.1 (hparts ▸ List.mem_map_of_mem hx)
      rw [← hc] at hp
      cases hp
  obtain ⟨t, hhappens, -⟩ := h.happens
  obtain ⟨u, hfirst, -⟩ := hhappens.split
  have hstart : (calm rules limit frames).On (r.frame i) (s.depth + 1) (s.entered i r) :=
    ⟨reached_self (hs.entered i r), rfl⟩
  obtain ⟨v, hv, houtcome⟩ := (happens_own hσ hfirst hown hstart).2 x hmem
  exact (avoids_evaluatePart hσ hp he
    (hroom (Rule.mem_exprs_of_mem_ownParts (hown x hmem) hp)) v hv).2 cause
      (houtcome.trans hcause)

/-- Once the variables of an instance have been evaluated, its frame is one of those around. -/
theorem exists_forced_of_happens (hs : (calm rules limit frames).Fits s)
    {held known acted : List Event}
    (h : Environment.Happens ⟨rules, .builtins⟩ limit r (s.entered i r) (held ++ known ++ acted) t)
    (hown : ∀ x ∈ held ++ known ++ acted, x.part ∈ r.ownParts)
    (hpasses : Passes Event.Fails (r.vars.keys.map .var) known) :
    ∃ g, g.IsForced ∧ (calm rules limit (g :: frames)).At (s.depth + 1) t := by
  simp only [List.forall_mem_append] at hown
  obtain ⟨⟨hownHeld, hownKnown⟩, hownActed⟩ := hown
  obtain ⟨v, hfirst, hacted⟩ := h.split
  obtain ⟨w, hheld, hknown⟩ := hfirst.split
  have hstart : (calm rules limit frames).On (r.frame i) (s.depth + 1) (s.entered i r) :=
    ⟨reached_self (hs.entered i r), rfl⟩
  -- the variables get their values
  obtain ⟨⟨hw, hwdepth⟩, -⟩ := happens_own hσ hheld hownHeld hstart
  obtain ⟨⟨-, hvdepth⟩, -⟩ := happens_own hσ hknown hownKnown ⟨hw, hwdepth⟩
  have hforce := hknown.forceAll Registry.respects_builtins_follows hpasses.parts hpasses.goes
  obtain ⟨g, -, hforced, hv⟩ := exists_forced hσ (Registry.isTame_builtins _) hw hforce
  -- the actions leave them alone
  obtain ⟨⟨ht, htdepth⟩, -⟩ := happens_own hσ hacted hownActed ⟨reached_self hv, hvdepth⟩
  obtain ⟨g', hadvances, ht⟩ := reached_iff.1 ht
  rw [hadvances.eq_of_isForced hforced] at ht
  exact ⟨g, hforced, ht, htdepth⟩

/-- A child starts below the frames around its parent and the frame of its parent, whose variables
have values by then, one level further in. -/
theorem exists_inside_of_unfolds (hs : (calm rules limit frames).Fits s)
    {before behind : List Event} {x : Event} {c : RuleId}
    (h : Environment.Unfolds ⟨rules, .builtins⟩ limit i r s (before ++ x :: behind))
    (hbefore : Environment.Happens ⟨rules, .builtins⟩ limit r (s.entered i r) before t)
    (hx : x.part = .child c) :
    c ∈ r.children ∧
      ∃ g, g.IsForced ∧ (calm rules limit (g :: frames)).At (s.depth + 1) t := by
  obtain ⟨own, visited, hsplit, hown, hvisited⟩ := h.course.split
  obtain ⟨earlier, rfl, rfl⟩ := Rule.exists_append_of_child hown hsplit hx
  obtain hnone | ⟨hparts, held, known, acted, rfl, hpasses⟩ := hvisited
  · simp at hnone
  have hchild : ∀ y ∈ earlier ++ x :: behind, ∃ d ∈ r.children, y.part = .child d := by
    intro y hy
    obtain ⟨d, hd, heq⟩ := List.mem_map.1 (hparts ▸ List.mem_map_of_mem hy)
    exact ⟨d, hd, heq.symm⟩
  obtain ⟨d, hd, heq⟩ := hchild x (by simp)
  cases hx.symm.trans heq
  obtain ⟨u, howned, hearlier⟩ := hbefore.split
  obtain ⟨g, hforced, hu⟩ := exists_forced_of_happens hσ hs howned hown hpasses
  exact ⟨hd, g, hforced, happens_children (IsForced.inside hσ hforced) hearlier
    (fun y hy => (hchild y (List.mem_append_left _ hy)).imp fun _ hd => hd.2) hu⟩

end Forced

end Site

namespace Environment

variable {rules : RuleSet} {limit : Nat} {root i : RuleId} {start s : Session}

/-- An instance is evaluated below frames whose variables have values, as deep as its rule has
ancestors.  The induction is on the way down from the root. -/
theorem InstanceAt.exists_site (ht : rules.IsForest) (hroot : root ∈ rules.roots)
    (hsource : start.source.IsCalm) (hscope : start.scope = ∅) (hdepth : start.depth = 0)
    (h : InstanceAt ⟨rules, .builtins⟩ limit root start i s) :
    ∃ frames q rs, (Site.calm rules limit frames).IsForced ∧ (Site.calm rules limit frames).Fits s ∧
      rules.rules[i]? = some q ∧ rules.Lineage i (q :: rs) ∧ rs.length = s.depth := by
  have hrule : ∀ {j}, j < rules.size → ∃ q, rules.rules[j]? = some q := fun hj =>
    ⟨_, Array.getElem?_eq_getElem hj⟩
  induction h with
  | root =>
      have hlt := hroot
      rw [ht.roots, List.mem_filter, List.mem_range] at hlt
      obtain ⟨q, hq⟩ := hrule hlt.1
      exact ⟨[], q, [], nofun, ⟨hsource, congrArg Scope.frames hscope⟩, hq,
        ht.lineage_root hroot hq, hdepth.symm⟩
  | @child _ c r _ _ _ _ _ _ hunfolds hbefore hx ih =>
      obtain ⟨frames, r', rs, hforced, hfits, hr', hlineage, hlength⟩ := ih
      obtain ⟨hc, g, hg, ht', hcdepth⟩ :=
        Site.exists_inside_of_unfolds hforced hfits hunfolds hbefore hx
      have hr : rules.rules[_]? = some r := hunfolds.rule
      obtain rfl : r' = r := Option.some.inj (hr'.symm.trans hr)
      have hlt := hc
      rw [ht.children hr, List.mem_filter, List.mem_range] at hlt
      obtain ⟨q, hq⟩ := hrule hlt.1
      exact ⟨g :: frames, q, r' :: rs, hforced.inside hg, ht', hq,
        ht.lineage_child hlineage hr hc hq, by rw [List.length_cons, hlength, hcdepth]⟩

end Environment

/-! ## Accepted rules -/

namespace RuleSet

open Environment

/-- No expression of a linked set is higher than the limit of nodes. -/
theorem height_le_of_linked {signatures : String → Option Signature}
    {sources : List (String × String)} {t : RuleSet}
    (h : (collect signatures sources).linked = .ok t) {i : RuleId} {r : Rule}
    (hr : t.rules[i]? = some r) {e : Expr} (he : e ∈ r.exprs) : e.height ≤ Parser.nodeLimit := by
  have hraw : (collect signatures sources).IsCollection fun e => e.height ≤ Parser.nodeLimit :=
    isCollection_collect (Q := fun e => e.height ≤ Parser.nodeLimit)
      (fun _ => ⟨Parser.yields_height_boundedExpression signatures,
        fun he hsimplify => Nat.le_trans (Expr.height_le_of_simplify hsimplify) he⟩) sources
  have ht := isLinked_of_linked (isCollection_isFolded signatures sources) h
  obtain ⟨r', e', hr', he', rfl⟩ := ht.exists_of_mem_exprs hr he
  rw [Expr.height_bindMetadata]
  exact (hraw.raw hr').exprs e' he'

/--
**No expression of an accepted text is higher than 256, so that evaluation has levels for all that
needs no variable of its own rule.**  From a root and whatever the file, every instance of a rule
with at most 255 ancestors is evaluated, and wherever it evaluates a condition, a variable or an
action whose expression mentions no variable of the rule, that is not nested too deep.
-/
theorem parse_withinLevels {source text : String} {t : RuleSet}
    (h : parse Registry.builtins.signature? source text = .ok t) :
    (∀ (i : RuleId) (r : Rule), t.rules[i]? = some r → ∀ e ∈ r.exprs, e.height ≤ 256) ∧
    ∀ root ∈ t.roots, ∀ files name size bytes globals output,
      let start := Session.start files (.claiming name size bytes) globals output
      ∀ i s rs, InstanceAt ⟨t, .builtins⟩ depthLimit root start i s → t.Lineage i rs →
        rs.length ≤ 256 →
        (∃ r xs, Unfolds ⟨t, .builtins⟩ depthLimit i r s xs) ∧
        ∀ r xs, Unfolds ⟨t, .builtins⟩ depthLimit i r s xs → ∀ x ∈ xs, ∀ e,
          x.part.expr? r = some e → r.IsForeign e → ∀ n, x.outcome ≠ .error (.tooDeep n) := by
  have hlinked := linked_collect_of_parse h
  have hheight : ∀ (i : RuleId) (r : Rule), t.rules[i]? = some r → ∀ e ∈ r.exprs,
      e.height ≤ 256 := fun _ _ hr _ he => height_le_of_linked hlinked hr he
  refine ⟨hheight, fun root hroot files name size bytes globals output => ?_⟩
  intro start i s rs hinstance hlineage hlevel
  have ht : t.IsForest := isForest_of_linked (isCollection_isFolded _ _) hlinked
  obtain ⟨frames, q, rs', hforced, hfits, hq, hrs', hlength⟩ :=
    hinstance.exists_site ht hroot (Source.isCalm_claiming name size bytes) rfl rfl
  cases hlineage.unique ht.indexed hrs'
  have hlimit : depthLimit = 256 + 256 := rfl
  rw [List.length_cons] at hlevel
  constructor
  · have hroom : s.depth < depthLimit := by omega
    exact ⟨q, exists_unfolds Registry.respects_builtins_follows (show _ from hq) hroom⟩
  · intro r xs hunfolds x hx e he hforeign n hdeep
    refine Site.not_isReserved_of_unfolds hforced hfits hunfolds hx he hforeign (fun hmem => ?_)
      hdeep rfl
    have := hheight i r hunfolds.rule e hmem
    omega

/-- A child whose condition needs the variable of its parent. -/
def magicText : String :=
  "rule top \x7b var magic = Byte(0); \x7d rule sub : top \x7b if magic == 127; \x7d"

/-- The child has an instance, and its condition is evaluated there. -/
theorem parse_withinLevels_magicText :
    let start := Session.start ⟨∅, []⟩ (.claiming "byte" 1 [127]) ∅ none
    ∃ t s r xs x e, parse Registry.builtins.signature? "rules" magicText = .ok t ∧ 0 ∈ t.roots ∧
      InstanceAt ⟨t, .builtins⟩ depthLimit 0 start 1 s ∧
      Unfolds ⟨t, .builtins⟩ depthLimit 1 r s xs ∧ x ∈ xs ∧ x.part = .condition e ∧
      e.height ≤ 256 ∧ ∀ n, x.outcome ≠ .error (.tooDeep n) := by
  intro start
  have hcomputed : ((parse Registry.builtins.signature? "rules" magicText).toOption.bind fun t =>
      ((evaluateRule ⟨t, .builtins⟩ depthLimit 0).outcome start).toOption.bind fun found =>
        found.bind fun _ => t.rules[0]?.bind fun q => t.rules[1]?.map fun r =>
          decide (0 ∈ t.roots ∧ 1 ∈ q.children ∧ r.vars.keys = [] ∧ r.conditions.length = 1)) =
      some true := by
    decide +kernel
  obtain ⟨t, ht, hcomputed⟩ := Option.bind_eq_some_iff.1 hcomputed
  obtain ⟨found, hfound, hcomputed⟩ := Option.bind_eq_some_iff.1 hcomputed
  obtain ⟨m, hmatch, hcomputed⟩ := Option.bind_eq_some_iff.1 hcomputed
  obtain ⟨q, hq, hcomputed⟩ := Option.bind_eq_some_iff.1 hcomputed
  obtain ⟨r, hr, hcomputed⟩ := Option.map_eq_some_iff.1 hcomputed
  obtain ⟨hroot, hchild, hkeys, hconditions⟩ := of_decide_eq_true hcomputed
  obtain ⟨e, he⟩ := List.length_eq_one_iff.1 hconditions
  have hparse := ok_of_toOption ht
  have hmatched : (evaluateRule ⟨t, .builtins⟩ depthLimit 0).outcome start = .ok (some m) :=
    ok_of_toOption (hmatch ▸ hfound)
  have hforest : t.IsForest :=
    isForest_of_linked (isCollection_isFolded _ _) (linked_collect_of_parse hparse)
  have htop : t.Lineage 0 [q] := hforest.lineage_root hroot hq
  have hsub : t.Lineage 1 [r, q] := hforest.lineage_child htop hq hchild hr
  -- the parent matches, so its child has an instance
  obtain ⟨ys, hys⟩ : ∃ ys, Unfolds ⟨t, .builtins⟩ depthLimit 0 q start ys :=
    exists_unfolds Registry.respects_builtins_follows hq (by decide)
  obtain ⟨s, hs⟩ := InstanceAt.root.exists_child hys hmatched hchild
  obtain ⟨hheight, hroots⟩ := parse_withinLevels hparse
  obtain ⟨⟨r', xs, hxs⟩, hdeep⟩ :=
    hroots 0 hroot ⟨∅, []⟩ "byte" 1 [127] ∅ none 1 s [r, q] hs hsub (by simp)
  obtain rfl : r' = r := Option.some.inj (hxs.rule.symm.trans hr)
  obtain ⟨x, hx, hpart⟩ := hxs.course.exists_condition he
  have hforeign : r'.IsForeign e := by simp [Rule.IsForeign, hkeys]
  exact ⟨t, s, r', xs, x, e, hparse, hroot, hs, hxs, hx, hpart,
    hheight 1 r' hr e (Rule.mem_exprs.2 (.inr (.inl (by simp [he])))),
    hdeep r' xs hxs x hx e (by rw [hpart, Part.expr?]) hforeign⟩

end RuleSet

end RuleScan
