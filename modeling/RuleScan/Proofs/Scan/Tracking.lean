import RuleScan.Proofs.Scan.Visits

/-!
# Every path that waits is dealt with once

A path is on the list at most once in a scan, and a scan that finishes has taken every path from
the list.  So each path that ever waited is visited exactly once, and each visit leaves its mark:
an entry, a warning, or a directory whose names are put on the list, with a warning for each fault
that was met while it was listed.  The report consists of
these marks and of nothing else.

The paths that were visited and those that still wait are together the paths that were ever
seen, each once.  This is the invariant, along with what follows for the report; it holds
whatever the operators do.

## Main results

* `Visit.IsSettled` — the mark that a visit leaves.
* `Tracked.visit` — a path is moved from those that wait to those that were visited.
* `Works.isComplete` — a scan that has worked off everything has dealt with every path.
-/

namespace RuleScan.Scan

namespace Visit

/-- The state after a visit. -/
def after (setup : Setup) (v : Visit) : State := (visit setup v.before v.item).1

theorem after_eq {setup : Setup} {st st' : State} {item : Item}
    (h : visit setup st item = (st', none)) : Visit.after setup ⟨st, item⟩ = st' := by
  unfold Visit.after
  rw [h]

/-- The entries that a visit adds to the report. -/
def entries (setup : Setup) (v : Visit) : List Entry :=
  (v.after setup).report.entries.drop v.before.report.entries.length

/-- The warnings that a visit adds to the report. -/
def warnings (setup : Setup) (v : Visit) : List String :=
  (v.after setup).report.warnings.drop v.before.report.warnings.length

/-- The mark that a visit leaves: one entry, one warning, or a directory.  The names found in a
directory are listed, and each fault that was met leaves a warning; without a fault these are all
its names and there is no warning. -/
inductive IsSettled (setup : Setup) (listed : Path → Prop) (v : Visit) : Prop
  | entry (e : Entry) (hentries : v.entries setup = [e]) (hwarnings : v.warnings setup = [])
      (hid : e.id = v.before.nextId) (hpath : e.path = v.item.path)
  | warning (message : String) (hentries : v.entries setup = [])
      (hwarnings : v.warnings setup = [message])
      (hlook : look setup v.before.files v.item.path = .rejected ∨
        look setup v.before.files v.item.path = .irregular)
      (hcreated : v.created setup = [])
  | directory (names faults : List String) (hentries : v.entries setup = [])
      (hwarnings : v.warnings setup = faults)
      (hlook : look setup v.before.files v.item.path = .directory names faults)
      (hcreated : v.created setup = [])
      (hlisted : ∀ name ∈ names, listed (v.item.path.join name))
      (hnames : names.Sublist (v.before.files.namesIn v.item.path))
      (hcomplete : faults = [] → names = v.before.files.namesIn v.item.path)

theorem IsSettled.mono {setup : Setup} {listed listed' : Path → Prop} {v : Visit}
    (h : v.IsSettled setup listed) (hmono : ∀ p, listed p → listed' p) :
    v.IsSettled setup listed' := by
  cases h with
  | entry e hentries hwarnings hid hpath => exact .entry e hentries hwarnings hid hpath
  | warning message hentries hwarnings hlook hcreated =>
      exact .warning message hentries hwarnings hlook hcreated
  | directory names faults hentries hwarnings hlook hcreated hlisted hnames hcomplete =>
      exact .directory names faults hentries hwarnings hlook hcreated
        (fun name hname => hmono _ (hlisted name hname)) hnames hcomplete

end Visit

/-! ## Putting paths on the list -/

/-- What is on the list is seen, and with other paths makes up all that was seen. -/
theorem State.perm_enqueueAll {others : List (List Path.Component)} {st : State}
    (h : (others ++ st.waiting.map fun i => i.path.components).Perm st.seen)
    (hdistinct : st.seen.Nodup) (parent : Option FileId) (depth : Nat) (paths : List Path) :
    (others ++ (st.enqueueAll parent depth paths).waiting.map fun i => i.path.components).Perm
      (st.enqueueAll parent depth paths).seen ∧ (st.enqueueAll parent depth paths).seen.Nodup := by
  induction paths with
  | nil => exact ⟨h, hdistinct⟩
  | cons p rest ih =>
      rw [State.enqueueAll_cons, State.enqueue]
      split
      · exact ih
      · next hseen =>
        rw [List.contains_iff_mem] at hseen
        exact ⟨List.perm_middle.trans (ih.1.cons _), List.nodup_cons.2 ⟨hseen, ih.2⟩⟩

section Visiting

variable {setup : Setup} {st st' : State} {item : Item}

/-- A visit puts paths on the list of a state in which the others wait as before. -/
theorem Proceeds.eq_enqueueAll (h : Proceeds setup st item st') :
    ∃ (base : State) (parent : Option FileId) (depth : Nat) (paths : List Path),
      st' = base.enqueueAll parent depth paths ∧ base.waiting = st.waiting ∧
        base.seen = st.seen := by
  cases h with
  | entered files output events e _ => exact ⟨_, _, _, _, rfl, rfl, rfl⟩
  | warned message => exact ⟨st.warn message, none, 0, [], rfl, rfl, rfl⟩
  | expanded names faults => exact ⟨_, _, _, _, rfl, rfl, rfl⟩

/-- A visit leaves its mark, and adds nothing else to the report. -/
theorem settled_of_visit (hvisit : visit setup st item = (st', none)) :
    Visit.IsSettled setup (fun p => p.components ∈ st'.seen) ⟨st, item⟩ ∧
      st'.report.entries = st.report.entries ++ Visit.entries setup ⟨st, item⟩ ∧
      st'.report.warnings = st.report.warnings ++ Visit.warnings setup ⟨st, item⟩ := by
  have hafter := Visit.after_eq hvisit
  have hadds : ∀ {es ws}, st'.report.entries = st.report.entries ++ es →
      st'.report.warnings = st.report.warnings ++ ws →
      Visit.entries setup ⟨st, item⟩ = es ∧ Visit.warnings setup ⟨st, item⟩ = ws := by
    intro es ws hes hws
    unfold Visit.entries Visit.warnings
    rw [hafter, hes, hws]
    exact ⟨List.drop_left, List.drop_left⟩
  suffices h : ∃ es ws, st'.report.entries = st.report.entries ++ es ∧
      st'.report.warnings = st.report.warnings ++ ws ∧
      (Visit.entries setup ⟨st, item⟩ = es → Visit.warnings setup ⟨st, item⟩ = ws →
        Visit.IsSettled setup (fun p => p.components ∈ st'.seen) ⟨st, item⟩) by
    obtain ⟨es, ws, hes, hws, hsettled⟩ := h
    obtain ⟨hentries, hwarnings⟩ := hadds hes hws
    exact ⟨hsettled hentries hwarnings, by rw [hentries, hes], by rw [hwarnings, hws]⟩
  cases proceeds hvisit with
  | entered files output events e he =>
      refine ⟨[e], [], ?_, ?_, fun hentries hwarnings => .entry e hentries hwarnings he.id he.path⟩
      · rw [State.report_enqueueAll]
        rfl
      · rw [State.report_enqueueAll, List.append_nil]
        rfl
  | warned message hlook hcreated =>
      exact ⟨[], [message], (List.append_nil _).symm, rfl, fun hentries hwarnings =>
        .warning message hentries hwarnings hlook hcreated⟩
  | expanded names faults hlook hcreated =>
      obtain ⟨hnames, hcomplete⟩ := look_directory_names hlook
      refine ⟨[], faults, ?_, ?_, fun hentries hwarnings =>
        .directory names faults hentries hwarnings hlook hcreated (fun name hname => ?_) hnames
          hcomplete⟩
      · rw [State.report_enqueueAll, List.append_nil]
        rfl
      · rw [State.report_enqueueAll]
        rfl
      · exact (State.mem_seen_enqueueAll _ item.parent item.depth).2
          (.inl ⟨_, List.mem_map_of_mem hname, rfl⟩)

end Visiting

/-! ## The invariant -/

/-- The paths that were visited and those that wait are the paths that were seen, each once; and
the report consists of what the visits added. -/
structure Tracked (setup : Setup) (inputs : List Path) (past : List Visit) (st : State) : Prop where
  listed : ((past.map fun v => v.item.path.components) ++
    st.waiting.map fun i => i.path.components).Perm st.seen
  distinct : st.seen.Nodup
  inputs : ∀ p ∈ inputs, p.components ∈ st.seen
  queued : ∀ v ∈ past, ∀ item ∈ (v.after setup).waiting,
    item ∈ st.waiting ∨ ∃ w ∈ past, w.item = item
  entries : st.report.entries = past.flatMap (Visit.entries setup)
  warnings : st.report.warnings = past.flatMap (Visit.warnings setup)
  settled : ∀ v ∈ past, v.IsSettled setup fun p => p.components ∈ st.seen

/-- Every path that waited was visited once, and the report consists of the marks of the
visits. -/
structure Report.IsComplete (setup : Setup) (inputs : List Path) (vs : List Visit) (r : Report) :
    Prop where
  once : (vs.map fun v => v.item.path.components).Nodup
  inputs : ∀ p ∈ inputs, ∃ v ∈ vs, v.item.path.same p
  queued : ∀ v ∈ vs, ∀ item ∈ (v.after setup).waiting, ∃ w ∈ vs, w.item = item
  entries : r.entries = vs.flatMap (Visit.entries setup)
  warnings : r.warnings = vs.flatMap (Visit.warnings setup)
  settled : ∀ v ∈ vs, v.IsSettled setup fun p => ∃ w ∈ vs, w.item.path.same p

namespace Tracked

variable {setup : Setup} {inputs : List Path} {past : List Visit} {st st' : State} {item : Item}
  {rest : List Item}

/-- A path is moved from those that wait to those that were visited. -/
theorem visit (h : Tracked setup inputs past st) (hw : st.waiting = item :: rest)
    (hvisit : Scan.visit setup { st with waiting := rest } item = (st', none)) :
    Tracked setup inputs (past ++ [⟨{ st with waiting := rest }, item⟩]) st' := by
  obtain ⟨hsettled, hentries, hwarnings⟩ := settled_of_visit hvisit
  have hafter := Visit.after_eq hvisit
  obtain ⟨base, parent, depth, paths, rfl, hwaiting, hseen⟩ := (proceeds hvisit).eq_enqueueAll
  have hwaiting' : base.waiting = rest := hwaiting
  have hseen' : base.seen = st.seen := hseen
  let v : Visit := ⟨{ st with waiting := rest }, item⟩
  have hlisted : (((past ++ [v]).map fun v => v.item.path.components) ++
      base.waiting.map fun i => i.path.components).Perm base.seen := by
    have hbefore := h.listed
    rw [hw] at hbefore
    rw [hwaiting', hseen']
    simpa [v] using hbefore
  obtain ⟨hperm, hdistinct⟩ :=
    State.perm_enqueueAll hlisted (hseen' ▸ h.distinct) parent depth paths
  have hmono : ∀ c ∈ st.seen, c ∈ (base.enqueueAll parent depth paths).seen := fun c hc =>
    (State.mem_seen_enqueueAll base parent depth).2 (.inr (hseen' ▸ hc))
  obtain ⟨ps, -, hnew⟩ := State.exists_waiting_enqueueAll base parent depth paths
  have hrest : ∀ i ∈ rest, i ∈ (base.enqueueAll parent depth paths).waiting := by
    intro i hi
    rw [hnew, hwaiting']
    exact List.mem_append_right _ hi
  refine ⟨hperm, hdistinct, fun p hp => hmono _ (h.inputs p hp), ?_, ?_, ?_, ?_⟩
  · intro v hv i hi
    rcases List.mem_append.1 hv with hv | hv
    · rcases h.queued v hv i hi with hi | ⟨w, hw', rfl⟩
      · rw [hw] at hi
        rcases List.mem_cons.1 hi with rfl | hi
        · exact .inr ⟨_, List.mem_append_right _ List.mem_cons_self, rfl⟩
        · exact .inl (hrest i hi)
      · exact .inr ⟨w, List.mem_append_left _ hw', rfl⟩
    · rw [List.mem_singleton.1 hv, hafter] at hi
      exact .inl hi
  · rw [hentries, List.flatMap_append, ← h.entries]
    simp
  · rw [hwarnings, List.flatMap_append, ← h.warnings]
    simp
  · intro v hv
    rcases List.mem_append.1 hv with hv | hv
    · exact (h.settled v hv).mono fun p hp => hmono _ hp
    · rw [List.mem_singleton.1 hv]
      exact hsettled

theorem start (setup : Setup) (files : FileSystem) (output : Option OutputDir)
    (inputs : List Path) :
    Tracked setup inputs [] ((State.start files output).enqueueAll none 0 inputs) := by
  have hnothing : ([] ++ (State.start files output).waiting.map fun i : Item =>
      i.path.components).Perm (State.start files output).seen := .nil
  obtain ⟨hperm, hdistinct⟩ := State.perm_enqueueAll hnothing .nil none 0 inputs
  have hreport := State.report_enqueueAll (State.start files output) none 0 inputs
  refine ⟨hperm, hdistinct, fun p hp => ?_, nofun, ?_, ?_, nofun⟩
  · exact (State.mem_seen_enqueueAll _ none 0).2 (.inl ⟨p, hp, rfl⟩)
  · rw [hreport]
    rfl
  · rw [hreport]
    rfl

/-- When nothing waits any more, what was seen was visited. -/
theorem isComplete (h : Tracked setup inputs past st) (hdone : st.waiting = []) :
    st.report.IsComplete setup inputs past := by
  have hlisted := h.listed
  rw [hdone, List.map_nil, List.append_nil] at hlisted
  have hvisited : ∀ p : Path, p.components ∈ st.seen → ∃ w ∈ past, w.item.path.same p := by
    intro p hp
    obtain ⟨w, hw, hsame⟩ := List.mem_map.1 (hlisted.mem_iff.2 hp)
    exact ⟨w, hw, Path.same_iff.2 hsame⟩
  refine ⟨hlisted.nodup_iff.2 h.distinct, fun p hp => hvisited p (h.inputs p hp), ?_, h.entries,
    h.warnings, fun v hv => (h.settled v hv).mono hvisited⟩
  intro v hv i hi
  refine (h.queued v hv i hi).resolve_left ?_
  rw [hdone]
  exact List.not_mem_nil

end Tracked

theorem Works.isComplete {setup : Setup} {inputs : List Path} {st last : State} {vs : List Visit}
    (h : Works setup st vs last) (hst : Tracked setup inputs [] st) (hdone : last.waiting = []) :
    last.report.IsComplete setup inputs vs := by
  have htracked := h.preserves (Tracked setup inputs)
    (fun _ _ _ _ _ htracked hwaiting hvisit => htracked.visit hwaiting hvisit) hst
  exact htracked.isComplete hdone

end RuleScan.Scan
