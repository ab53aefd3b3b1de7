import RuleScan.Proofs.Evaluation.Running
import RuleScan.Proofs.Evaluation.Snapshot
import RuleScan.Proofs.Rule.Kinship

/-!
# Match trees mirror rule trees

A rule that matched takes a snapshot of the scope and then runs its actions and its children.
The scope that it took the snapshot of is forced, so neither the actions nor the children change
it, and every child starts below the same frames.  What a match is made of can be read off
those frames: `Site.Shaped` says so of a whole tree, one node at a time.

From a shaped tree of a linked set everything that one wants to know follows.  A match lists its
children in the order of their declaration, those that matched apart from those that did not.
Going down from the root, each match adds the variables of its rule to those of its parent.

## Main results

* `Site.ensures_runChildren` — children are sorted, each on its own.
* `Site.ensures_evaluateRuleWithin` — a match that a rule comes to is shaped.
* `Match.Line.exists_of_mem` — every match of a tree ends a line from the root.
* `Environment.evaluateRule_mirrors` — the match tree mirrors the rule tree.
-/

namespace RuleScan

open Step

/-- The chosen elements of a list and the others: each element is in one of the two lists, and
both are in the order of the whole list. -/
structure Splits {α : Type} (all chosen others : List α) : Prop where
  left : chosen.Sublist all
  right : others.Sublist all
  perm : (chosen ++ others).Perm all

namespace Splits

variable {α : Type} {all chosen others : List α}

theorem nil : Splits ([] : List α) [] [] := ⟨.refl _, .refl _, .refl _⟩

theorem cons_left (h : Splits all chosen others) (a : α) :
    Splits (a :: all) (a :: chosen) others :=
  ⟨h.left.cons_cons a, h.right.cons a, h.perm.cons a⟩

theorem cons_right (h : Splits all chosen others) (a : α) :
    Splits (a :: all) chosen (a :: others) :=
  ⟨h.left.cons a, h.right.cons_cons a, List.perm_middle.trans (h.perm.cons a)⟩

end Splits

namespace Site

variable {σ : Site} {f g : Frame} {s t : Session} {i : RuleId} {r : Rule}
  {child : RuleId → Step (Option Match)}

/-! ## The shape of a match -/

/-- The match of a rule at a place, with the frame that the rule had when it matched: its
children matched within this frame. -/
inductive Shaped : Site → Match → Prop where
  | node {σ : Site} {i : RuleId} {r : Rule} {g : Frame} {children : List Match}
      {others : List RuleId} :
      σ.env.rules.rules[i]? = some r → σ.Advances (r.frame i) g → g.IsForced →
      Splits r.children (children.map Match.rule) others →
      (∀ c ∈ children, Shaped (σ.inside g) c) →
      Shaped σ (.node i r.id (Scope.snapshot ⟨g :: σ.frames⟩) children
        (others.map fun c => (σ.env.rules.idAt? c).getD ""))

/-- A rule was evaluated at the place: the session is there again, and if the rule matched, its
match is shaped. -/
def Matched (σ : Site) (i : RuleId) (found : Except Error (Option Match)) (s : Session) : Prop :=
  σ.Fits s ∧ ∀ m, found = .ok (some m) → m.rule = i ∧ σ.Shaped m

/-! ## From the children to a rule -/

theorem Fits.recordFailure (h : σ.Fits s) (rules : RuleSet) (rule : Option RuleId) (e : Error) :
    σ.Fits ((Step.recordFailure rules rule e).after s) := h

/-- A rule is evaluated within its frame. -/
theorem Fits.entered (h : σ.Fits s) (i : RuleId) (r : Rule) :
    (σ.inside (r.frame i)).Fits (s.entered i r) := by
  refine ⟨h.1, ?_⟩
  show (s.scope.push i r.vars.entries).frames = r.frame i :: σ.frames
  rw [Scope.push_vars, h.2]

/-- The induction is on the children; whether one of them matched, did not match or failed, the
next one starts at the same place. -/
theorem ensures_runChildren (hchild : ∀ i, Ensures σ.Fits (child i) (σ.Matched i))
    (is : List RuleId) {found : List Match × List String} (hs : σ.Fits s)
    (h : Environment.runChildren σ.env child is s = .ok found t) :
    σ.Fits t ∧ (∀ c ∈ found.1, σ.Shaped c) ∧ ∃ others,
      Splits is (found.1.map Match.rule) others ∧
        found.2 = others.map fun c => (σ.env.rules.idAt? c).getD "" := by
  induction is generalizing s found with
  | nil =>
      cases h
      exact ⟨hs, fun c hc => absurd hc List.not_mem_nil, [], .nil, rfl⟩
  | cons i rest ih =>
      obtain ⟨found', t', hrest⟩ := Environment.runChildren_ok σ.env child rest
        (σ.env.afterChild child i s)
      rw [Environment.runChildren_cons hrest] at h
      cases h
      obtain ⟨hfits, hm⟩ := hchild i s hs
      have hafter : σ.Fits (σ.env.afterChild child i s) := by
        unfold Environment.afterChild
        cases (child i).outcome s with
        | ok _ => exact hfits
        | error e => exact hfits.recordFailure σ.env.rules (some i) e
      obtain ⟨ht, hshaped, others, hsplits, hids⟩ := ih hafter hrest
      cases hmatch : Environment.matchOf ((child i).outcome s) with
      | none => exact ⟨ht, hshaped, i :: others, hsplits.cons_right i, congrArg _ hids⟩
      | some m =>
          have houtcome : (child i).outcome s = .ok (some m) := by
            unfold Environment.matchOf at hmatch
            split at hmatch
            · next heq => exact heq.trans (congrArg _ hmatch)
            · cases hmatch
          obtain ⟨hrule, hmshaped⟩ := hm m houtcome
          refine ⟨ht, List.forall_mem_cons.2 ⟨hmshaped, hshaped⟩, others, ?_, hids⟩
          show Splits (i :: rest) (m.rule :: found'.1.map Match.rule) others
          exact hrule ▸ hsplits.cons_left m.rule

theorem IsForced.inside (hσ : σ.IsForced) (hg : g.IsForced) : (σ.inside g).IsForced :=
  List.forall_mem_cons.2 ⟨hg, hσ⟩

section Evaluation

variable (hσ : σ.IsForced) (hops : σ.env.operators.IsTame σ.known) {budget : Nat}

include hσ hops

/-- A rule with a forced frame matches; neither its actions nor its children change the
frame. -/
theorem ensures_runMatched (hi : σ.env.rules.rules[i]? = some r)
    (hg : σ.Advances (r.frame i) g) (hforced : g.IsForced)
    (hchild : ∀ c, Ensures (σ.inside g).Fits (child c) ((σ.inside g).Matched c)) :
    Ensures (σ.inside g).Fits
      (Environment.runMatched σ.env (σ.env.evaluateWithin σ.limit budget) child i r)
      fun out s => (σ.inside g).Fits s ∧ ∀ m, out = .ok m → m.rule = i ∧ σ.Shaped m := by
  intro s hs
  have hactions : Maintains (σ.inside g).Fits
      (Environment.runActions σ.env (σ.env.evaluateWithin σ.limit budget) r.actions) :=
    (composable_maintains _).runActions
      (fun a _ => maintains_fits (hσ.inside hforced) hops budget a.expr)
      fun e s hs => hs.recordFailure σ.env.rules s.scope.current? e
  obtain ⟨found, t, hchildren⟩ := Environment.runChildren_ok σ.env child r.children
    ((Environment.runActions σ.env (σ.env.evaluateWithin σ.limit budget) r.actions).after s)
  obtain ⟨ht, hshaped, others, hsplits, hids⟩ :=
    (σ.inside g).ensures_runChildren hchild r.children (hactions s hs) hchildren
  have hrun := Environment.runMatched_of_ok (i := i) hchildren
  rw [outcome_of_ok hrun, after_of_ok hrun]
  refine ⟨ht, fun m hm => ?_⟩
  have hscope : s.scope = ⟨g :: σ.frames⟩ := congrArg Scope.mk hs.2
  cases hm
  rw [hscope, hids]
  exact ⟨rfl, .node hi hg hforced hsplits hshaped⟩

/-- A rule is left with the frames around its own as they were. -/
theorem ensures_runRule (hi : σ.env.rules.rules[i]? = some r)
    (hchild : ∀ g, g.IsForced → ∀ c,
      Ensures (σ.inside g).Fits (child c) ((σ.inside g).Matched c)) :
    Ensures (σ.inside (r.frame i)).Fits
      (Environment.runRule σ.env (σ.env.evaluateWithin σ.limit budget) child i r)
      fun out s => (∃ g, (σ.inside g).Fits s) ∧
        ∀ m, out = .ok (some m) → m.rule = i ∧ σ.Shaped m := by
  have heval := maintains_evaluateWithin hσ hops budget
  have hleft : ∀ s, σ.Reached (r.frame i) s → ∃ g, (σ.inside g).Fits s := fun s hs => by
    obtain ⟨g, -, hg⟩ := reached_iff.1 hs
    exact ⟨g, hg⟩
  have hheld : Maintains (σ.Reached (r.frame i))
      (Environment.allHold (σ.env.evaluateWithin σ.limit budget) r.conditions) :=
    (composable_maintains _).allHold fun c _ => heval c _
  have hforce : Ensures (σ.Reached (r.frame i))
      (Environment.forceAll (σ.env.evaluateWithin σ.limit budget) r.vars.keys)
      fun out s => σ.Reached (r.frame i) s ∧ (out = .ok () →
        ∃ g, σ.Advances (r.frame i) g ∧ g.IsForced ∧ (σ.inside g).Fits s) := by
    intro s hs
    refine ⟨(composable_maintains _).forceAll
      (fun name => maintains_resolveWith hσ heval name _) _ s hs, fun hok => ?_⟩
    cases hr : Environment.forceAll (σ.env.evaluateWithin σ.limit budget) r.vars.keys s with
    | ok _ t =>
        rw [after_of_ok hr]
        exact exists_forced hσ hops hs hr
    | error e t =>
        rw [outcome_of_error hr] at hok
        cases hok
  unfold Environment.runRule
  refine ensures_bind (R := fun _ => σ.Reached (r.frame i))
    (fun s hs => hheld s (reached_self hs)) (fun held => ?_)
    fun e s hs => ⟨hleft s hs, by simp⟩
  cases held with
  | false => exact ensures_pure fun s hs => ⟨hleft s hs, by simp⟩
  | true =>
      refine ensures_bind hforce (fun _ => ?_) fun e s hs => ⟨hleft s hs.1, by simp⟩
      intro s ⟨_, hok⟩
      obtain ⟨g, hg, hforced, hfits⟩ := hok rfl
      have hmatched : Ensures (σ.inside g).Fits
          (Environment.runMatched σ.env (σ.env.evaluateWithin σ.limit budget) child i r >>=
            fun m => pure (some m))
          fun out s => (∃ g, (σ.inside g).Fits s) ∧
            ∀ m, out = .ok (some m) → m.rule = i ∧ σ.Shaped m := by
        refine ensures_bind (ensures_runMatched hσ hops hi hg hforced (hchild g hforced))
          (fun m => ensures_pure fun s hs => ⟨⟨g, hs.1⟩, fun m' hm' => ?_⟩)
          fun e s hs => ⟨⟨g, hs.1⟩, by simp⟩
        cases hm'
        exact hs.2 m rfl
      exact hmatched s hfits

/-- The induction is on the budget.  The children of a rule are evaluated at another place, that
within its frame. -/
theorem ensures_evaluateRuleWithin (budget : Nat) (i : RuleId) :
    Ensures σ.Fits (σ.env.evaluateRuleWithin σ.limit budget i) (σ.Matched i) := by
  induction budget generalizing σ i with
  | zero => exact ensures_throw fun s hs => ⟨hs, by simp⟩
  | succ budget ih =>
      intro s hs
      cases hi : σ.env.rules.rules[i]? with
      | none =>
          unfold Environment.evaluateRuleWithin
          rw [hi]
          exact ensures_throw (P := σ.Fits) (Q := σ.Matched i) (fun s hs => ⟨hs, by simp⟩) s hs
      | some r =>
          by_cases hroom : s.depth < σ.limit
          · obtain ⟨houtcome, hafter⟩ := Environment.evaluateRuleWithin_entered budget hi hroom
            have hchild : ∀ g, g.IsForced → ∀ c, Ensures (σ.inside g).Fits
                (σ.env.evaluateRuleWithin σ.limit budget c) ((σ.inside g).Matched c) :=
              fun g hforced => ih (hσ.inside hforced) hops
            obtain ⟨⟨g, hg⟩, hm⟩ := ensures_runRule hσ hops hi hchild _ (hs.entered i r)
            rw [houtcome, hafter]
            exact ⟨⟨hg.1, congrArg List.tail hg.2⟩, hm⟩
          · rw [Environment.evaluateRuleWithin_succ _ _ _ hi]
            have hdeep := Nat.le_of_not_lt hroom
            rw [outcome_of_error (nested_of_le hdeep _), after_of_error (nested_of_le hdeep _)]
            exact ⟨hs, by simp⟩

end Evaluation

end Site

/-! ## Lines of matches -/

namespace Match

/-- A line in a tree of matches, from the match in which it ends up to the whole tree. -/
inductive Line (m : Match) : List Match → Prop where
  | root : Line m [m]
  | child {c p : Match} {ps : List Match} :
      Line m (p :: ps) → c ∈ p.children → Line m (c :: p :: ps)

theorem sizeOf_lt_of_mem_children {c m : Match} (h : c ∈ m.children) : sizeOf c < sizeOf m := by
  obtain ⟨i, id, vars, children, unmatched⟩ := m
  have hlt := List.sizeOf_lt_of_mem (show c ∈ children from h)
  simp only [node.sizeOf_spec]
  omega

/-- A match below one that ends a line ends a line itself. -/
theorem Line.exists_of_mem {m n c : Match} {ps : List Match} (hn : m.Line (n :: ps))
    (hc : c ∈ n.preorder) : ∃ qs, m.Line (c :: qs) := by
  rw [preorder_eq, List.mem_cons, List.mem_flatMap] at hc
  obtain rfl | ⟨d, hd, hc⟩ := hc
  · exact ⟨ps, hn⟩
  · exact (Line.child hn hd).exists_of_mem hc
termination_by sizeOf n
decreasing_by exact sizeOf_lt_of_mem_children hd

/-- The values in sight of a rule before it adds its own are those of the match of its parent,
which is the next one in the line. -/
def inheritedVars : List Match → Table String Value
  | [] => ∅
  | p :: _ => p.vars

end Match

/-! ## Mirrored rules -/

/-- The session is one in which variables of a rule are evaluated.  The innermost frame is one of
the rule: each variable is in progress, or has yet to be evaluated, or has the value that `vars`
gives it.  The frames around it are forced, and their values are `outer`. -/
def Session.IsEvaluating (s : Session) (i : RuleId) (q : Rule)
    (outer vars : Table String Value) : Prop :=
  ∃ f fs, s.scope.frames = f :: fs ∧ f.rule = i ∧ f.bindings.keys = q.vars.keys ∧
    (∀ name b, f.bindings.get? name = some b → b = .inProgress ∨
      (∃ e, q.vars.get? name = some e ∧ b = .unevaluated e) ∨
      ∃ v, vars.get? name = some v ∧ b = .resolved v) ∧
    (∀ g ∈ fs, g.IsForced) ∧ Scope.snapshot ⟨fs⟩ = outer

namespace Environment

/-- The expression of a variable came to the value in a session in which the variables of its
rule were evaluated. -/
def CameTo (env : Environment) (limit : Nat) (known : Register → Source → Prop) (i : RuleId)
    (q : Rule) (outer vars : Table String Value) (e : Expr) (v : Value) : Prop :=
  ∃ budget s t, known s.globals s.source ∧ s.IsEvaluating i q outer vars ∧
    env.evaluateWithin limit budget e s = .ok v t

/-- The match `c` mirrors the rule `q`.  Around it, names have the values `outer`. -/
structure Mirrors (env : Environment) (limit : Nat) (known : Register → Source → Prop) (q : Rule)
    (outer : Table String Value) (c : Match) : Prop where
  rule : env.rules.rules[c.rule]? = some q
  id : c.id = q.id
  /-- The children of a rule stand in the order of their declaration. -/
  declared : q.children = (List.range env.rules.size).filter fun i =>
    env.rules.rules[i]?.bind Rule.parentName = some q.id
  /-- No two children have the same id. -/
  distinct : (q.children.map env.rules.idAt?).Nodup
  /-- Each child is the rule of one of the matches, or is listed by its id among the others. -/
  sorted : ∃ others, Splits q.children (c.children.map Match.rule) others ∧
    c.unmatched.map some = others.map env.rules.idAt?
  /-- The names are those around the match and the new ones of the rule. -/
  vars : q.Extends outer c.vars
  /-- A variable of the rule has the value that its expression came to. -/
  own : ∀ name e, Scope.IsLocal name → q.vars.get? name = some e → ∃ v,
    c.vars.get? name = some v ∧ env.CameTo limit known c.rule q outer c.vars e v

end Environment

namespace Site

variable {σ : Site} {f g : Frame} {i : RuleId} {r : Rule} {e : Expr} {v : Value}

/-- What a frame may look like on its way, told from the rule and from the snapshot that is taken
in the end. -/
theorem CameTo.of_frame (hσ : σ.IsForced) (hg : σ.Advances (r.frame i) g)
    (hv : σ.CameTo (r.frame i) g e v) :
    σ.env.CameTo σ.limit σ.known i r (Scope.snapshot ⟨σ.frames⟩)
      (Scope.snapshot ⟨g :: σ.frames⟩) e v := by
  obtain ⟨budget, h, s, t, hmet, hfits, hrun⟩ := hv
  have hstart : ∀ {name b}, (r.frame i).bindings.get? name = some b →
      ∃ d, r.vars.get? name = some d ∧ b = .unevaluated d := by
    intro name b hb
    rw [Rule.get?_frame, Option.map_eq_some_iff] at hb
    obtain ⟨d, hd, rfl⟩ := hb
    exact ⟨d, hd, rfl⟩
  refine ⟨budget, s, t, hfits.1, ⟨h, σ.frames, hfits.2, hmet.rule,
    hmet.names.trans (Table.keys_mapValues _ _), fun name b hb => ?_, hσ, rfl⟩, hrun⟩
  obtain hmark | hf | hend := hmet.bindings hb
  · exact Or.inl hmark
  · exact Or.inr (Or.inl (hstart hf))
  · obtain ⟨c, hc⟩ := hg.exists_get? hend
    obtain hsame | ⟨-, -, w, -, hw, -⟩ := hg.bindings hc
    · rw [hend, Option.some.injEq] at hsame
      exact Or.inr (Or.inl (hstart (hsame ▸ hc)))
    · have hvalue := Scope.get?_snapshot (s := ⟨g :: σ.frames⟩) rfl hw
      rw [hend, Option.some.injEq] at hw
      exact Or.inr (Or.inr ⟨w, hvalue, hw⟩)

theorem Shaped.mirrors {c : Match} (hc : σ.Shaped c) (hσ : σ.IsForced)
    (ht : σ.env.rules.IsForest) :
    ∃ q, σ.env.Mirrors σ.limit σ.known q (Scope.snapshot ⟨σ.frames⟩) c := by
  cases hc with
  | @node _ i r g children others hi hg hforced hsplits _ =>
      have hkeys : g.bindings.keys = r.vars.keys := hg.names.trans (Table.keys_mapValues _ _)
      refine ⟨r, hi, rfl, ht.children hi, ht.nodup_idAt? hi, ⟨others, hsplits, ?_⟩,
        extends_snapshot hforced hkeys, fun name e hlocal he => ?_⟩
      · show (others.map _).map some = _
        rw [List.map_map]
        refine List.map_congr_left fun j hj => ?_
        have hmem := hsplits.right.subset hj
        rw [ht.children hi, List.mem_filter, List.mem_range] at hmem
        have hlt : j < σ.env.rules.rules.size := hmem.1
        simp [RuleSet.idAt?, Array.getElem?_eq_getElem hlt]
      · have hstart : (r.frame i).bindings.get? name = some (.unevaluated e) := by
          rw [Rule.get?_frame, he, Option.map_some]
        obtain hsame | ⟨-, d, v, hd, hv, hcame⟩ := hg.bindings hstart
        · obtain ⟨w, hw⟩ := (hforced name _ hsame).1 hlocal
          cases hw
        · cases hd
          exact ⟨v, Scope.get?_snapshot rfl hv, hcame.of_frame hσ hg⟩

/-- Where the match `c` of the rule `q` stands in a tree, below the matches `ps`: it is shaped
within their frames, and its rule has the ancestors `rs`. -/
structure Stands (σ : Site) (c : Match) (ps : List Match) (fs : List Frame) (q : Rule)
    (rs : List Rule) : Prop where
  forced : Site.IsForced { σ with frames := fs }
  shaped : Site.Shaped { σ with frames := fs } c
  mirrors : σ.env.Mirrors σ.limit σ.known q (Match.inheritedVars ps) c
  lineage : σ.env.rules.Lineage c.rule (q :: rs)
  names : ∀ name, name ∈ c.vars.keys ↔ ∃ r ∈ q :: rs, name ∈ r.locals

/-- The induction is on the line.  Going down by one match, the frame of the match joins the
frames around, and its rule joins the lineage. -/
theorem Shaped.of_line {m : Match} (hm : σ.Shaped m) (hempty : σ.frames = [])
    (ht : σ.env.rules.IsForest) (hroot : m.rule ∈ σ.env.rules.roots) {line : List Match}
    (h : m.Line line) : ∀ c ps, line = c :: ps → ∃ fs q rs, σ.Stands c ps fs q rs := by
  induction h with
  | root =>
      rintro c ps ⟨⟩
      obtain ⟨env, limit, known, frames⟩ := σ
      subst hempty
      have hforced : Site.IsForced ⟨env, limit, known, []⟩ := nofun
      obtain ⟨q, hq⟩ := hm.mirrors hforced ht
      refine ⟨[], q, [], hforced, hm, hq, ht.lineage_root hroot hq.rule, fun name => ?_⟩
      rw [hq.vars.mem_keys]
      simp [Scope.snapshot, Table.ofList]
  | @child c p ps _ hmem ih =>
      rintro _ _ ⟨⟩
      obtain ⟨fs, q, rs, hp⟩ := ih p ps rfl
      obtain ⟨others, hsorted, -⟩ := hp.mirrors.sorted
      have hchild := hsorted.left.subset (List.mem_map_of_mem hmem)
      have hshaped := hp.shaped
      cases hshaped with
      | @node _ i r g children others hi hg hgforced hsplits hchildren =>
          have hforced : Site.IsForced { σ with frames := g :: fs } := hp.forced.inside hgforced
          have hc : Site.Shaped { σ with frames := g :: fs } c := hchildren c hmem
          obtain ⟨q', hq⟩ := hc.mirrors hforced ht
          refine ⟨g :: fs, q', q :: rs, hforced, hc, hq,
            ht.lineage_child hp.lineage hp.mirrors.rule hchild hq.rule, fun name => ?_⟩
          rw [hq.vars.mem_keys, List.exists_mem_cons_iff]
          exact or_congr_right (hp.names name)

end Site

/-- The rule at a position declares a variable that is looked up in frames. -/
def RuleSet.Declares (t : RuleSet) (i : RuleId) (name : String) : Prop :=
  ∃ q, t.rules[i]? = some q ∧ name ∈ q.locals

namespace Environment

variable {env : Environment} {limit : Nat} {known : Register → Source → Prop} {m : Match}

/-- Going up a line, a name has the same value up to the first match whose rule declares it. -/
theorem get?_of_line
    (hall : ∀ c ps, m.Line (c :: ps) → ∃ q, env.Mirrors limit known q (Match.inheritedVars ps) c)
    {name : String} {d : Match} {above below : List Match} {c : Match} {ps : List Match}
    (h : m.Line (c :: ps)) (hline : c :: ps = below ++ d :: above)
    (hbelow : ∀ b ∈ below, ¬ env.rules.Declares b.rule name) :
    m.Line (d :: above) ∧ c.vars.get? name = d.vars.get? name := by
  induction below generalizing c ps with
  | nil =>
      cases hline
      exact ⟨h, rfl⟩
  | cons b rest ih =>
      rw [List.forall_mem_cons] at hbelow
      obtain ⟨q, hq⟩ := hall c ps h
      rw [List.cons_append, List.cons.injEq] at hline
      obtain ⟨rfl, rfl⟩ := hline
      have hname : name ∉ q.locals := fun hmem => hbelow.1 ⟨q, hq.rule, hmem⟩
      have hvalue := hq.vars.inherited name hname
      cases hrest : rest ++ d :: above with
      | nil => simp at hrest
      | cons p qs =>
          rw [hrest] at h hvalue
          cases h with
          | child hp _ =>
              obtain ⟨hd, heq⟩ := ih hp hrest.symm hbelow.2
              exact ⟨hd, hvalue.trans heq⟩

/-- The match `c` of the rule `q`, below the matches `ps`, mirrors the rule, whose ancestors are
`rs`. -/
structure MirrorsLine (env : Environment) (limit : Nat) (known : Register → Source → Prop)
    (q : Rule) (rs : List Rule) (c : Match) (ps : List Match) : Prop
    extends Mirrors env limit known q (Match.inheritedVars ps) c where
  lineage : env.rules.Lineage c.rule (q :: rs)
  /-- The names are those that the rule and its ancestors declare. -/
  names : ∀ name, name ∈ c.vars.keys ↔ ∃ r ∈ q :: rs, name ∈ r.locals
  /-- A name has the value of its innermost declaration: that of the first match `d` in the line
  whose rule declares it. -/
  innermost : ∀ {below d above name r e}, c :: ps = below ++ d :: above →
    (∀ b ∈ below, ¬ env.rules.Declares b.rule name) → env.rules.rules[d.rule]? = some r →
    Scope.IsLocal name → r.vars.get? name = some e →
    ∃ v, c.vars.get? name = some v ∧
      env.CameTo limit known d.rule r (Match.inheritedVars above) d.vars e v

/--
**The match tree mirrors the rule tree.**  Let a root rule of a linked set match in a session with
an empty scope.  Then every match in the tree ends a line of matches from the root, and along
every line each match mirrors its rule: its children and the ids of those that did not match are
the children of the rule, each once and in the order of declaration; its names are the names
of its parent followed by the new ones of the rule, which makes them the names that the rule and
its ancestors declare; a name has the value that its innermost declaration came to, and one that
the rule does not declare has the value that it has in the match of the parent.

Variables whose names start with `$` are never looked up and do not count as declared.  The
operators may do whatever they like as long as they get at the scope by looking names up.
-/
theorem evaluateRule_mirrors {P : Expr → Prop} {set t : RuleSet} (hset : set.IsCollection P)
    (hlinked : set.linked = .ok t) {operators : Registry} (hops : operators.IsTame known)
    {root : RuleId} (hroot : root ∈ t.roots) {s : Session} (hscope : s.scope = ∅)
    (hknown : known s.globals s.source)
    (hm : (evaluateRule ⟨t, operators⟩ limit root).outcome s = .ok (some m)) :
    m.rule = root ∧ (∀ c ∈ m.preorder, ∃ ps, m.Line (c :: ps)) ∧
      ∀ c ps, m.Line (c :: ps) → ∃ q rs, MirrorsLine ⟨t, operators⟩ limit known q rs c ps := by
  have ht : t.IsForest := RuleSet.isForest_of_linked hset hlinked
  let σ : Site := ⟨⟨t, operators⟩, limit, known, []⟩
  have hfits : σ.Fits s := ⟨hknown, congrArg Scope.frames hscope⟩
  have hforced : σ.IsForced := nofun
  obtain ⟨-, hmatched⟩ := σ.ensures_evaluateRuleWithin hforced hops (s.room limit) root s hfits
  obtain ⟨hrule, hshaped⟩ := hmatched m hm
  refine ⟨hrule, fun c hc => Match.Line.root.exists_of_mem hc, fun c ps h => ?_⟩
  have hall : ∀ c ps, m.Line (c :: ps) →
      ∃ q, Mirrors ⟨t, operators⟩ limit known q (Match.inheritedVars ps) c := by
    intro c ps h
    obtain ⟨_, q, _, hc⟩ := hshaped.of_line rfl ht (hrule.symm ▸ hroot) h c ps rfl
    exact ⟨q, hc.mirrors⟩
  obtain ⟨_, q, rs, hc⟩ := hshaped.of_line rfl ht (hrule.symm ▸ hroot) h c ps rfl
  refine ⟨q, rs, hc.mirrors, hc.lineage, hc.names, fun hsplit hbelow hr hlocal he => ?_⟩
  obtain ⟨hd, hvalue⟩ := get?_of_line hall h hsplit hbelow
  obtain ⟨q', hq'⟩ := hall _ _ hd
  have hsame := hq'.rule.symm.trans hr
  rw [Option.some.injEq] at hsame
  obtain ⟨v, hv, hcame⟩ := hq'.own _ _ hlocal (hsame ▸ he)
  exact ⟨v, hvalue.trans hv, hsame ▸ hcame⟩

/-- A rule and two children, of which one matches.  It declares a variable of its own and one
that its parent declares too. -/
def kindText : String :=
  "rule top \x7b var magic = Byte(0); var kind = 0; if magic == 127; \x7d " ++
  "rule yes : top \x7b var size = kind + 1; var kind = 2; if kind == magic - 125; \x7d " ++
  "rule no : top \x7b if kind == 1; \x7d"

/-- The variable of the child is the one that its condition and its other variable see. -/
theorem evaluateRule_mirrors_kindText :
    let source := Source.ofFile "f" [127]
    ∃ t m, (RuleSet.collect (fun _ => none) [("rules", kindText)]).linked = .ok t ∧
      0 ∈ t.roots ∧
      (evaluateRule ⟨t, .builtins⟩ depthLimit 0).outcome
        (Session.start ⟨∅, []⟩ source ∅ none) = .ok (some m) ∧
      (m.preorder.map fun c =>
          (c.id, c.unmatched, c.vars.entries.map fun x => (x.1, x.2.printPlain))) =
        [("top", ["no"], [("magic", "127"), ("kind", "0")]),
          ("yes", [], [("magic", "127"), ("kind", "2"), ("size", "3")])] ∧
      ∀ c ps, m.Line (c :: ps) → ∃ q rs, MirrorsLine ⟨t, .builtins⟩ depthLimit
        (fun globals file => globals = ∅ ∧ file = source) q rs c ps := by
  intro source
  have hcomputed :
      ((RuleSet.collect (fun _ => none) [("rules", kindText)]).linked.toOption.bind fun t =>
        ((evaluateRule ⟨t, .builtins⟩ depthLimit 0).outcome
          (Session.start ⟨∅, []⟩ source ∅ none)).toOption.bind fun found =>
            found.map fun m => decide (0 ∈ t.roots ∧
              (m.preorder.map fun c =>
                  (c.id, c.unmatched, c.vars.entries.map fun x => (x.1, x.2.printPlain))) =
                [("top", ["no"], [("magic", "127"), ("kind", "0")]),
                  ("yes", [], [("magic", "127"), ("kind", "2"), ("size", "3")])])) =
        some true := by
    decide +kernel
  obtain ⟨t, ht, hcomputed⟩ := Option.bind_eq_some_iff.1 hcomputed
  obtain ⟨found, hfound, hcomputed⟩ := Option.bind_eq_some_iff.1 hcomputed
  obtain ⟨m, rfl, hm⟩ := Option.map_eq_some_iff.1 hcomputed
  obtain ⟨hroot, hm⟩ := of_decide_eq_true hm
  have hlinked := ok_of_toOption ht
  have houtcome := ok_of_toOption hfound
  exact ⟨t, m, hlinked, hroot, houtcome, hm,
    (evaluateRule_mirrors (RuleSet.isCollection_isFolded _ _) hlinked (Registry.isTame_builtins _)
      hroot rfl ⟨rfl, rfl⟩ houtcome).2.2⟩

/-- `$x = true;` in a rule without conditions. -/
def globalNameRule : Rule :=
  { Rule.new "a" "r" with vars := Table.ofList [("$x", .literal (.bool true))] }

/-- A variable under a name that starts with `$` has no value in the match of its rule. -/
theorem vars_globalNameRule :
    ∃ set t q m, (∅ : RuleSet).insert globalNameRule = .ok (set, 0) ∧ set.linked = .ok t ∧
      0 ∈ t.roots ∧ t.rules[0]? = some q ∧ q.vars.keys = ["$x"] ∧
      (evaluateRule ⟨t, .builtins⟩ depthLimit 0).outcome
        (Session.start ⟨∅, []⟩ (Source.ofFile "f" []) ((∅ : Register).set "$x" (.bool false))
          none) = .ok (some m) ∧
      m.vars.keys = [] := by
  have hcomputed : (((∅ : RuleSet).insert globalNameRule).toOption.bind fun inserted =>
      inserted.1.linked.toOption.bind fun t =>
        t.rules[0]?.bind fun q =>
          ((evaluateRule ⟨t, .builtins⟩ depthLimit 0).outcome
            (Session.start ⟨∅, []⟩ (Source.ofFile "f" [])
              ((∅ : Register).set "$x" (.bool false)) none)).toOption.bind fun found =>
                found.map fun m => (inserted.2, t.roots, q.vars.keys, m.vars.keys)) =
      some (0, [0], ["$x"], []) := by
    decide +kernel
  obtain ⟨⟨set, i⟩, hset, hcomputed⟩ := Option.bind_eq_some_iff.1 hcomputed
  obtain ⟨t, ht, hcomputed⟩ := Option.bind_eq_some_iff.1 hcomputed
  obtain ⟨q, hq, hcomputed⟩ := Option.bind_eq_some_iff.1 hcomputed
  obtain ⟨found, hfound, hcomputed⟩ := Option.bind_eq_some_iff.1 hcomputed
  obtain ⟨m, rfl, hm⟩ := Option.map_eq_some_iff.1 hcomputed
  simp only [Prod.mk.injEq] at hm
  obtain ⟨rfl, hroots, hkeys, hvars⟩ := hm
  exact ⟨set, t, q, m, ok_of_toOption hset, ok_of_toOption ht,
    hroots ▸ List.mem_singleton_self 0, hq, hkeys, ok_of_toOption hfound, hvars⟩

end Environment

end RuleScan
