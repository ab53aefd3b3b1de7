import RuleScan.Proofs.Evaluation.Running
import RuleScan.Proofs.Rule.Passes
import RuleScan.Proofs.Scan.Telling

/-!
# The order of matches and tags

A file is evaluated by the root rules in the order in which they run, and each of them adds at
most one tree of matches.  So the trees of an entry come in that order, one for each root that
matched.  The tags of an entry are collected from the rules of all matches, tree by tree and in
each tree from the top down, and a tag that is there already is passed over.

All entries of a scan are made in one way or another by `visit`; those against which no rules
were evaluated have neither trees nor tags.  The scan may end before its report is there, and
then the entries that it told of are those that were finished.

## Main results

* `eraseDups_eq_firstOccurrences` — what is left when repetitions are dropped.
* `isOf_evaluateRuleWithin` — a match is of the rule that was evaluated, and all matches in its
  tree are of rules of the set.
* `sublist_evaluateRoots` — the rules that matched, in the order in which they were evaluated.
* `scanWithin_ordered` — roots run by pass, and entries show it.
-/

namespace RuleScan

/-! ## First occurrences -/

section FirstOccurrences

variable {α : Type} [DecidableEq α]

/-- The elements of a list that do not stand at an earlier place, too. -/
def firstOccurrences (l : List α) : List α :=
  (l.zipIdx.filter fun x => x.1 ∉ l.take x.2).map Prod.fst

theorem firstOccurrences_concat (l : List α) (a : α) :
    firstOccurrences (l ++ [a]) = firstOccurrences l ++ if a ∈ l then [] else [a] := by
  have hearlier : (l.zipIdx.filter fun x => x.1 ∉ (l ++ [a]).take x.2) =
      l.zipIdx.filter fun x => x.1 ∉ l.take x.2 := by
    refine List.filter_congr fun x hx => ?_
    have hlt : x.2 < l.length := by
      have h := List.mem_zipIdx hx
      omega
    rw [List.take_append_of_le_length (by omega)]
  rw [firstOccurrences, List.zipIdx_append, List.filter_append, List.map_append, hearlier]
  congr 1
  by_cases ha : a ∈ l <;> simp [ha]

/-- What is left when repetitions are dropped are the first occurrences. -/
theorem eraseDups_eq_firstOccurrences (l : List α) : l.eraseDups = firstOccurrences l := by
  induction l using List.reverseRecOn with
  | nil => rfl
  | append_singleton l a ih =>
    rw [List.eraseDups_append, ih, firstOccurrences_concat]
    by_cases ha : a ∈ l <;> simp [List.removeAll, ha, List.eraseDups_cons]

theorem nodup_firstOccurrences (l : List α) : (firstOccurrences l).Nodup := by
  induction l using List.reverseRecOn with
  | nil => exact .nil
  | append_singleton l a ih =>
    rw [firstOccurrences_concat]
    split
    · rwa [List.append_nil]
    · next ha =>
      have hnew : a ∉ firstOccurrences l := by
        rwa [← eraseDups_eq_firstOccurrences, List.mem_eraseDups]
      refine List.nodup_append.2 ⟨ih, List.nodup_singleton a, fun b hb c hc hbc => ?_⟩
      rw [List.mem_singleton.1 hc] at hbc
      exact hnew (hbc ▸ hb)

end FirstOccurrences

/-! ## Which rules matched -/

/-- All matches of a tree are of rules of the set. -/
def Match.IsOf (rules : RuleSet) (m : Match) : Prop :=
  ∀ n ∈ m.preorder, ∃ r, rules.rules[n.rule]? = some r

namespace Environment

open Step

variable {env : Environment} {eval : Expr → Step Value} {child : RuleId → Step (Option Match)}
  {limit : Nat} {i : RuleId} {r : Rule} {s t : Session} {m : Match}

/-- Whatever holds of the matches of rules holds of the matches of children. -/
theorem forall_mem_runChildren {Q : Match → Prop}
    (hchild : ∀ {c s m}, (child c).outcome s = .ok (some m) → Q m) (is : List RuleId)
    {found : List Match × List String} (h : runChildren env child is s = .ok found t) :
    ∀ m ∈ found.1, Q m := by
  induction is generalizing s found with
  | nil =>
    cases h
    exact nofun
  | cons c rest ih =>
    obtain ⟨found', t', hrest⟩ := runChildren_ok env child rest (env.afterChild child c s)
    rw [runChildren_cons hrest] at h
    cases h
    have hothers := ih hrest
    cases ho : (child c).outcome s with
    | error e => exact hothers
    | ok found =>
      cases found with
      | none => exact hothers
      | some m => exact List.forall_mem_cons.2 ⟨hchild ho, hothers⟩

/-- A rule that matched has a match of its own, with those of its children below it. -/
theorem of_runRule {Q : Match → Prop}
    (hchild : ∀ {c s m}, (child c).outcome s = .ok (some m) → Q m)
    (h : runRule env eval child i r s = .ok (some m) t) :
    m.rule = i ∧ ∀ c ∈ m.children, Q c := by
  unfold runRule at h
  cases hheld : allHold eval r.conditions s with
  | error e u =>
    rw [bind_of_error hheld] at h
    cases h
  | ok held u =>
    rw [bind_of_ok hheld] at h
    cases held with
    | false => cases h
    | true =>
      rw [if_pos rfl] at h
      cases hforced : forceAll eval r.vars.keys u with
      | error e v =>
        rw [bind_of_error hforced] at h
        cases h
      | ok _ v =>
        obtain ⟨found, w, hchildren⟩ :=
          runChildren_ok env child r.children ((runActions env eval r.actions).after v)
        rw [bind_of_ok hforced, bind_of_ok (runMatched_of_ok hchildren)] at h
        cases h
        exact ⟨rfl, forall_mem_runChildren hchild r.children hchildren⟩

/-- The induction is on the budget. -/
theorem isOf_evaluateRuleWithin (budget : Nat)
    (h : (env.evaluateRuleWithin limit budget i).outcome s = .ok (some m)) :
    m.rule = i ∧ m.IsOf env.rules := by
  induction budget generalizing i s m with
  | zero => cases h
  | succ budget ih =>
    cases hi : env.rules.rules[i]? with
    | none =>
      rw [outcome, evaluateRuleWithin, hi] at h
      cases h
    | some r =>
      by_cases hroom : s.depth < limit
      · rw [(evaluateRuleWithin_entered budget hi hroom).1] at h
        unfold outcome at h
        split at h
        · next hrun =>
          cases h
          obtain ⟨hrule, hchildren⟩ := of_runRule (fun ho => (ih ho).2) hrun
          refine ⟨hrule, fun n hn => ?_⟩
          rw [Match.preorder_eq, List.mem_cons, List.mem_flatMap] at hn
          rcases hn with rfl | ⟨c, hc, hn⟩
          · exact ⟨r, hrule ▸ hi⟩
          · exact hchildren c hc n hn
        · cases h
      · rw [evaluateRuleWithin_succ _ _ _ hi,
          outcome_of_error (nested_of_le (Nat.le_of_not_lt hroom) _)] at h
        cases h

end Environment

namespace Scan

/-- Each root that was evaluated adds at most one tree, which is its own. -/
theorem sublist_evaluateRoots (env : Environment) (is : List RuleId) (s : Session) :
    ((evaluateRoots env is s).1.map Match.rule).Sublist is ∧
      ∀ m ∈ (evaluateRoots env is s).1, m.IsOf env.rules := by
  induction is generalizing s with
  | nil => exact ⟨.slnil, nofun⟩
  | cons i rest ih =>
    unfold evaluateRoots
    split
    · next m t hi =>
      obtain ⟨hrule, hof⟩ := Environment.isOf_evaluateRuleWithin _ (Step.outcome_of_ok hi)
      obtain ⟨hsub, hall⟩ := ih t
      refine ⟨?_, List.forall_mem_cons.2 ⟨hof, hall⟩⟩
      rw [List.map_cons, hrule]
      exact hsub.cons_cons i
    · next t hi => exact ⟨(ih t).1.cons i, (ih t).2⟩
    · exact ⟨(ih _).1.cons i, (ih _).2⟩

/-! ## Entries -/

/-- The trees and the tags of an entry are in the order in which the rules ran. -/
structure Entry.IsOrdered (rules : RuleSet) (e : Entry) : Prop where
  /-- The trees are those of roots, in the order in which roots run. -/
  trees : (e.trees.map Match.rule).Sublist rules.schedule
  /-- The tags are those of the rules that matched, each where it occurs first. -/
  tags : ∃ matched : List Rule,
    (e.trees.flatMap Match.preorder).map (fun m => rules.rules[m.rule]?) = matched.map some ∧
      e.tags = firstOccurrences (matched.flatMap Rule.tags)
  /-- No tag occurs twice. -/
  nodup : e.tags.Nodup

/-- All entries of the report are ordered, and all entries that were finished. -/
def State.IsOrdered (rules : RuleSet) (st : State) : Prop :=
  ∀ e, e ∈ st.report.entries ∨ .finished e ∈ st.events → e.IsOrdered rules

variable {rules : RuleSet} {setup : Setup} {st st' : State} {e : Entry}

/-- An entry without trees and tags. -/
theorem Entry.isOrdered_of_nil (htrees : e.trees = []) (htags : e.tags = []) :
    e.IsOrdered rules := by
  refine ⟨?_, ⟨[], ?_, ?_⟩, ?_⟩
  · rw [htrees]
    exact List.nil_sublist _
  · rw [htrees]
    rfl
  · rw [htags]
    rfl
  · rw [htags]
    exact .nil

/-- The rules of matches that are of rules of the set. -/
theorem exists_matched {ms : List Match} (h : ∀ m ∈ ms, m.IsOf rules) :
    ∃ matched : List Rule,
      (ms.flatMap Match.preorder).map (fun m => rules.rules[m.rule]?) = matched.map some := by
  have hall : ∀ n ∈ ms.flatMap Match.preorder, ∃ r, rules.rules[n.rule]? = some r := by
    intro n hn
    obtain ⟨m, hm, hn⟩ := List.mem_flatMap.1 hn
    exact h m hm n hn
  generalize ms.flatMap Match.preorder = ns at hall
  induction ns with
  | nil => exact ⟨[], rfl⟩
  | cons n rest ih =>
    obtain ⟨⟨r, hr⟩, hrest⟩ := List.forall_mem_cons.1 hall
    obtain ⟨matched, hmatched⟩ := ih hrest
    exact ⟨r :: matched, by rw [List.map_cons, hr, hmatched, List.map_cons]⟩

/-- The entry of a file whose rules were evaluated. -/
theorem Entry.isOrdered_concluded {ms : List Match}
    (hsub : (ms.map Match.rule).Sublist rules.schedule) (hof : ∀ m ∈ ms, m.IsOf rules)
    (e : Entry) (effects : Effects) : (concluded rules e ms effects).IsOrdered rules := by
  obtain ⟨matched, hmatched⟩ := exists_matched hof
  have htags : tagsOf rules ms = firstOccurrences (matched.flatMap Rule.tags) := by
    have hlists : ((ms.flatMap Match.preorder).map fun m => rules.rules[m.rule]?).flatMap
        (fun r => (r.map Rule.tags).getD []) = matched.flatMap Rule.tags := by
      rw [hmatched, List.flatMap_map]
      rfl
    rw [List.flatMap_map] at hlists
    rw [tagsOf, hlists, eraseDups_eq_firstOccurrences]
  refine ⟨hsub, ⟨matched, hmatched, htags⟩, ?_⟩
  show (tagsOf rules ms).Nodup
  rw [htags]
  exact nodup_firstOccurrences _

/-! ## What a visit keeps -/

namespace State.IsOrdered

theorem emit (h : st.IsOrdered rules) {events : List Event} (hnew : ∀ e, .finished e ∉ events) :
    (st.emit events).IsOrdered rules := by
  rintro e (he | he)
  · exact h e (.inl he)
  · exact h e (.inr ((List.mem_append.1 he).resolve_right (hnew e)))

theorem commit (h : st.IsOrdered rules) (he : e.IsOrdered rules) :
    (st.commit e).IsOrdered rules := by
  rintro f (hf | hf)
  · rcases List.mem_append.1 hf with hf | hf
    · exact h f (.inl hf)
    · rwa [List.mem_singleton.1 hf]
  · rcases List.mem_append.1 hf with hf | hf
    · exact h f (.inr hf)
    · cases List.mem_singleton.1 hf
      exact he

theorem enqueueAll (h : st.IsOrdered rules) (parent : Option FileId) (depth : Nat)
    (paths : List Path) : (st.enqueueAll parent depth paths).IsOrdered rules := by
  intro e he
  rw [State.report_enqueueAll, State.events_enqueueAll] at he
  exact h e he

/-- The file may have become a reference, but nothing was evaluated. -/
theorem commitDuplicate (h : st.IsOrdered rules) (htrees : e.trees = []) (htags : e.tags = [])
    (references : References) (earlier : Entry) :
    (Scan.commitDuplicate references st e earlier).IsOrdered rules := by
  obtain ⟨files, e', heq, he'⟩ := commitDuplicate_eq references st e earlier
  have hfiles : ({ st with files } : State).IsOrdered rules := h
  rw [heq]
  refine hfiles.commit (Entry.isOrdered_of_nil ?_ ?_)
  · rcases he' with rfl | ⟨cause, rfl⟩ <;> exact htrees
  · rcases he' with rfl | ⟨cause, rfl⟩ <;> exact htags

theorem conclude (h : st.IsOrdered setup.env.rules) {ms : List Match} {session : Session}
    (hsub : (ms.map Match.rule).Sublist setup.env.rules.schedule)
    (hof : ∀ m ∈ ms, m.IsOf setup.env.rules) (e : Entry) :
    (Scan.conclude setup st e ms session).1.IsOrdered setup.env.rules := by
  have hfiles : ({ st with files := session.files, output := session.output } :
    State).IsOrdered setup.env.rules := h
  unfold Scan.conclude
  dsimp only
  split
  · exact hfiles
  · have hdone := Entry.isOrdered_concluded hsub hof e session.effects
    exact ((hfiles.emit fun f => by simp [matchEvents]).commit hdone).enqueueAll _ _ _

theorem evaluateFile (h : st.IsOrdered setup.env.rules) (e : Entry) (content : Bytes) :
    (Scan.evaluateFile setup st e content).1.IsOrdered setup.env.rules := by
  have hstarted : (st.emit [.started e]).IsOrdered setup.env.rules := h.emit (by simp)
  obtain ⟨hsub, hof⟩ := sublist_evaluateRoots setup.env setup.env.rules.schedule
    (Session.start st.files (.ofFile e.path content) (fileGlobals setup.config e st.output)
      st.output)
  exact hstarted.conclude hsub hof e

/-- A visit keeps it so, whether or not the scan goes on. -/
theorem visit (h : st.IsOrdered setup.env.rules) (item : Item) :
    (Scan.visit setup st item).1.IsOrdered setup.env.rules := by
  have hfail : ∀ size cause,
      (st.commit ((st.entryFor item size).fail none cause)).IsOrdered setup.env.rules :=
    fun size cause => h.commit (Entry.isOrdered_of_nil rfl rfl)
  unfold Scan.visit
  dsimp only
  split
  · exact hfail _ _
  · exact h
  · next names faults _ =>
    have hwarned : (st.warnAll faults).IsOrdered setup.env.rules := h
    exact hwarned.enqueueAll _ _ _
  · exact h
  · next size _ =>
    unfold visitFile
    split
    · exact hfail _ _
    · split
      · exact hfail _ _
      · next content _ =>
        dsimp only
        split
        · exact h.commitDuplicate rfl rfl _ _
        · exact h.evaluateFile _ content

end State.IsOrdered

/-! ## Whole scans -/

/-- However a scan ends, the entries that it told of are ordered.  The induction is on the
budget. -/
theorem run_isOrdered (budget : Nat) (h : st.IsOrdered setup.env.rules) :
    (∀ e, .finished e ∈ (run setup budget st).events → e.IsOrdered setup.env.rules) ∧
      ∀ r, (run setup budget st).outcome = .finished r →
        ∀ e ∈ r.entries, e.IsOrdered setup.env.rules := by
  induction budget generalizing st with
  | zero => exact ⟨fun e he => h e (.inr he), fun r hr => absurd hr Outcome.noConfusion⟩
  | succ budget ih =>
    unfold run
    split
    · refine ⟨fun e he => h e (.inr he), fun r hr e he => ?_⟩
      cases hr
      exact h e (.inl he)
    · next item rest _ =>
      have hrest : ({ st with waiting := rest } : State).IsOrdered setup.env.rules := h
      have hnext := hrest.visit item
      split
      · next st' cause hvisit =>
        rw [hvisit] at hnext
        exact ⟨fun e he => hnext e (.inr he), fun r hr => absurd hr Outcome.noConfusion⟩
      · next st' hvisit =>
        rw [hvisit] at hnext
        exact ih hnext

/--
**Rules run in pass order, each once, and entries show it.**  The passes of a linked set, in
ascending order, list every root exactly once, ordered by pass and, within a pass, by
declaration.  And whatever is scanned with the set: the rules of the trees of an entry are some
of these, in this order, and its tags are the first occurrences of the tags of all rules that
matched, tree by tree and in each tree from the top down, without repetition.  Entries are those
of the report and those of a scan that ended before there was one.
-/
theorem scanWithin_ordered {P : Expr → Prop} {s t : RuleSet} (hs : s.IsCollection P)
    (h : s.linked = .ok t) :
    t.RunsInPassOrder ∧
      ∀ (operators : Registry) (config : Config) (system : System) (budget : Nat)
        (files : FileSystem) (inputs : List Path) (e : Entry),
        (.finished e ∈
            (scanWithin budget ⟨⟨⟨t, operators⟩, config⟩, system⟩ files inputs).events ∨
          ∃ r, (scanWithin budget ⟨⟨⟨t, operators⟩, config⟩, system⟩ files inputs).outcome =
              .finished r ∧
            e ∈ r.entries) →
        e.IsOrdered t := by
  refine ⟨(RuleSet.isForest_of_linked hs h).runsInPassOrder, ?_⟩
  intro operators config system budget files inputs e he
  unfold scanWithin at he
  split at he
  · rcases he with he | ⟨r, hr, -⟩
    · cases he
    · cases hr
  · next output files' _ =>
    have hstart : (State.start files' output).IsOrdered t := by
      rintro f (hf | hf) <;> cases hf
    have hrun := @run_isOrdered ⟨⟨⟨t, operators⟩, config⟩, system⟩ _ budget
      (hstart.enqueueAll none 0 inputs)
    rcases he with he | ⟨r, hr, he⟩
    · exact hrun.1 e he
    · exact hrun.2 r hr e he

/-- A root in a late pass, one in an early pass whose child has its tags, and one that never
matches. -/
def passText : String :=
  "rule late (pass = 2, tag = \"c,b\") \x7b\x7d rule early (pass = -1, tag = \"a, b\") \x7b\x7d " ++
  "rule below : early \x7b\x7d rule never \x7b if false; \x7d"

/-- What the set of these rules makes of a file. -/
def passScan (t : RuleSet) : Result :=
  scanWithin 2 ⟨⟨⟨t, .builtins⟩, {}⟩, .plain⟩ ⟨Table.ofList [(["f"], .file [7])], []⟩ ["f"]

/-- Of the three roots two matched, the second one first. -/
theorem scanWithin_ordered_passText :
    ∃ t r e, (RuleSet.collect Registry.builtins.signature? [("rules", passText)]).linked = .ok t ∧
      (passScan t).outcome = .finished r ∧ r.entries = [e] ∧ t.schedule = [1, 3, 0] ∧
      e.trees.map Match.rule = [1, 0] ∧ e.tags = ["a", "b", "c"] ∧
      t.RunsInPassOrder ∧ e.IsOrdered t := by
  have hcomputed :
      (RuleSet.collect Registry.builtins.signature? [("rules", passText)]).linked.toOption.bind
        (fun t => (passScan t).outcome.report?.map fun r =>
          (t.schedule, r.entries.map fun e => (e.trees.map Match.rule, e.tags))) =
        some ([1, 3, 0], [([1, 0], ["a", "b", "c"])]) := by
    decide +kernel
  obtain ⟨t, ht, hcomputed⟩ := Option.bind_eq_some_iff.1 hcomputed
  obtain ⟨r, hr, hshape⟩ := Outcome.finished_of_map hcomputed
  obtain ⟨hschedule, hentries⟩ := Prod.mk.inj hshape
  obtain ⟨e, he, hentry⟩ := List.map_eq_singleton_iff.1 hentries
  obtain ⟨htrees, htags⟩ := Prod.mk.inj hentry
  have hlinked := ok_of_toOption ht
  obtain ⟨horder, hscans⟩ := scanWithin_ordered (RuleSet.isCollection_isFolded _ _) hlinked
  exact ⟨t, r, e, hlinked, hr, he, hschedule, htrees, htags, horder,
    hscans .builtins {} .plain 2 _ _ e (.inr ⟨r, hr, he ▸ List.mem_singleton_self e⟩)⟩

end Scan

end RuleScan
