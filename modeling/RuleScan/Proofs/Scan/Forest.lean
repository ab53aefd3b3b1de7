import RuleScan.Operator.Builtin
import RuleScan.Scan.Run

/-!
# The entries of a report form a forest

Paths get onto the list of a scan in three ways: as inputs, as what a directory holds, and
as what the rules created while a file was evaluated.  They leave it in more: unreadable,
rejected, expanded, irregular, too deep, as a duplicate, or evaluated.  Whichever way a
path takes, the entries form a forest whose trees hang below the inputs, each level one
deeper than the one above, and which ends one level below the deepest files that are
evaluated.

The invariant is `State.Sound`.  It places the paths that wait as well as the entries: a
path with a parent waits only after the parent was evaluated, so when it gets its entry the
parent is among the earlier ones.

## Main results

* `Report.IsForest` — what the entries of a report satisfy.
* `Sound.commit`, `Sound.enqueueAll` — entering a file and letting paths wait.
* `Sound.visit` — every way of dealing with a path keeps the invariant.
* `scanWithin_isForest` — the reports of all scans are forests.
-/

namespace RuleScan.Scan

/-! ## Forests -/

/-- The entries of a report are a forest of files of at most this depth, with files one
level deeper that were not looked into. -/
structure Report.IsForest (maxDepth : Nat) (r : Report) : Prop where
  ids : ∀ (i : Nat) (e : Entry), r.entries[i]? = some e → e.id = i
  paths : ∀ (i j : Nat) (e f : Entry), r.entries[i]? = some e → r.entries[j]? = some f →
    e.path.same f.path → i = j
  roots : ∀ e ∈ r.entries, e.parent = none → e.depth = 0
  parents : ∀ e ∈ r.entries, ∀ p, e.parent = some p →
    p < e.id ∧ ∃ f, r.entries[p]? = some f ∧ e.depth = f.depth + 1 ∧ f.processed = true
  depth_le : ∀ e ∈ r.entries, e.depth ≤ maxDepth + 1
  processed_le : ∀ e ∈ r.entries, e.processed = true → e.depth ≤ maxDepth
  beyond : ∀ e ∈ r.entries, e.depth = maxDepth + 1 →
    e.content = none ∧ e.trees = [] ∧ e.errors ≠ [] ∧ r.children e.id = []

/-- Where a file with this parent is placed: inputs at depth zero, every other file one
level below a file that was evaluated. -/
def Report.Places (r : Report) : Option FileId → Nat → Prop
  | none, depth => depth = 0
  | some p, depth => ∃ f, r.entries[p]? = some f ∧ f.processed = true ∧ depth = f.depth + 1

/-- What was done with a file fits its depth. -/
structure Entry.Fits (maxDepth : Nat) (e : Entry) : Prop where
  shallow : e.processed = true → e.depth ≤ maxDepth
  deep : maxDepth < e.depth → e.content = none ∧ e.trees = [] ∧ e.errors ≠ []

namespace State

/-- The components of the paths that wait or have an entry. -/
def known (st : State) : List (List Path.Component) :=
  st.waiting.map (fun item => item.path.components) ++
    st.report.entries.map fun e => e.path.components

/-- The invariant of a scan. -/
structure Sound (maxDepth : Nat) (st : State) : Prop where
  ids : st.report.entries.map Entry.id = List.range st.report.entries.length
  placed : ∀ e ∈ st.report.entries, st.report.Places e.parent e.depth ∧
    ∀ p, e.parent = some p → p < e.id
  fits : ∀ e ∈ st.report.entries, e.Fits maxDepth
  waiting : ∀ item ∈ st.waiting, st.report.Places item.parent item.depth
  distinct : st.known.Nodup
  seen : ∀ c ∈ st.known, c ∈ st.seen

/-- A path that was taken from the list: it was seen, but neither waits nor has an entry. -/
structure Ready (st : State) (item : Item) : Prop where
  seen : item.path.components ∈ st.seen
  unknown : item.path.components ∉ st.known
  placed : st.report.Places item.parent item.depth

end State

/-- An entry is the one that a path gets which is dealt with next. -/
structure Entry.IsFor (e : Entry) (st : State) (item : Item) : Prop where
  id : e.id = st.nextId
  path : e.path = item.path
  parent : e.parent = item.parent
  depth : e.depth = item.depth

section Placing

variable {r : Report} {parent : Option FileId} {depth maxDepth : Nat}

/-- Further entries leave the place of a file as it is. -/
theorem Report.Places.append (h : r.Places parent depth) (e : Entry) :
    ({ r with entries := r.entries ++ [e] } : Report).Places parent depth := by
  cases parent with
  | none => exact h
  | some p =>
      obtain ⟨f, hf, hplace⟩ := h
      have hp : p < r.entries.length := (List.getElem?_eq_some_iff.1 hf).1
      exact ⟨f, by rw [List.getElem?_append_left hp, hf], hplace⟩

theorem Report.Places.lt (h : r.Places parent depth) {p : FileId} (hp : parent = some p) :
    p < r.entries.length := by
  subst hp
  obtain ⟨f, hf, -⟩ := h
  exact (List.getElem?_eq_some_iff.1 hf).1

/-- Only files that are not too deep are evaluated, so no file is two levels too deep. -/
theorem Report.Places.depth_le (h : r.Places parent depth)
    (hr : ∀ e ∈ r.entries, e.Fits maxDepth) : depth ≤ maxDepth + 1 := by
  cases parent with
  | none =>
      have hzero : depth = 0 := h
      omega
  | some p =>
      obtain ⟨f, hf, hprocessed, hdepth⟩ := h
      have hshallow := (hr f (List.mem_of_getElem? hf)).shallow hprocessed
      omega

end Placing

theorem State.report_enqueueAll (st : State) (parent : Option FileId)
    (depth : Nat) (paths : List Path) : (st.enqueueAll parent depth paths).report = st.report := by
  unfold State.enqueueAll
  induction paths with
  | nil => rfl
  | cons p rest ih =>
      rw [List.foldr_cons, State.enqueue]
      split
      · exact ih
      · exact ih

namespace State.Sound

variable {maxDepth : Nat} {st : State}

theorem id_eq (h : st.Sound maxDepth) {i : Nat} {e : Entry}
    (he : st.report.entries[i]? = some e) : e.id = i := by
  have hmap : (st.report.entries.map Entry.id)[i]? = some e.id := by
    rw [List.getElem?_map, he]
    rfl
  rw [h.ids] at hmap
  obtain ⟨hi, hget⟩ := List.getElem?_eq_some_iff.1 hmap
  rw [← hget, List.getElem_range]

/-- The invariant says all that makes the entries a forest. -/
theorem isForest (h : st.Sound maxDepth) : st.report.IsForest maxDepth where
  ids _ _ he := h.id_eq he
  paths i j e f he hf hsame := by
    have hnodup := (List.nodup_append.1 h.distinct).2.1
    refine (List.getElem?_inj ?_ hnodup).1 ?_
    · rw [List.length_map]
      exact (List.getElem?_eq_some_iff.1 he).1
    · rw [List.getElem?_map, List.getElem?_map, he, hf]
      exact congrArg some (Path.same_iff.1 hsame)
  roots e he hroot := by
    have hplace := (h.placed e he).1
    rw [hroot] at hplace
    exact hplace
  parents e he p hp := by
    obtain ⟨hplace, hlt⟩ := h.placed e he
    rw [hp] at hplace
    obtain ⟨f, hf, hprocessed, hdepth⟩ := hplace
    exact ⟨hlt p hp, f, hf, hdepth, hprocessed⟩
  depth_le e he := (h.placed e he).1.depth_le h.fits
  processed_le e he := (h.fits e he).shallow
  beyond e he hdepth := by
    obtain ⟨hcontent, htrees, herrors⟩ := (h.fits e he).deep (by omega)
    refine ⟨hcontent, htrees, herrors, List.eq_nil_iff_forall_not_mem.2 fun c hc => ?_⟩
    obtain ⟨hmem, hparent⟩ := Report.mem_children.1 hc
    have hplace := (h.placed c hmem).1
    rw [hparent] at hplace
    obtain ⟨f, hf, hprocessed, -⟩ := hplace
    -- the parent is the entry itself, which is too deep to have been evaluated
    obtain ⟨i, hi⟩ := List.getElem?_of_mem he
    have hfe : f = e := by
      rw [h.id_eq hi, hi, Option.some.injEq] at hf
      exact hf.symm
    have hshallow := (h.fits e he).shallow (hfe ▸ hprocessed)
    omega

/-! ## Waiting -/

theorem enqueue (h : st.Sound maxDepth) {item : Item}
    (hplace : st.report.Places item.parent item.depth) : (st.enqueue item).Sound maxDepth := by
  unfold State.enqueue
  split
  · exact h
  · next hseen =>
    rw [List.contains_iff_mem] at hseen
    have hnew : item.path.components ∉ st.known := fun hmem => hseen (h.seen _ hmem)
    refine ⟨h.ids, h.placed, h.fits, ?_, List.nodup_cons.2 ⟨hnew, h.distinct⟩, ?_⟩
    · exact List.forall_mem_cons.2 ⟨hplace, h.waiting⟩
    · exact List.forall_mem_cons.2
        ⟨List.mem_cons_self, fun c hc => List.mem_cons_of_mem _ (h.seen c hc)⟩

theorem enqueueAll (h : st.Sound maxDepth) {parent : Option FileId} {depth : Nat}
    (hplace : st.report.Places parent depth) (paths : List Path) :
    (st.enqueueAll parent depth paths).Sound maxDepth := by
  induction paths with
  | nil => exact h
  | cons p rest ih =>
      refine ih.enqueue ?_
      rw [State.report_enqueueAll]
      exact hplace

/-- The next path is taken from the list. -/
theorem pop {item : Item} {rest : List Item} (h : st.Sound maxDepth)
    (hw : st.waiting = item :: rest) :
    ({ st with waiting := rest } : State).Sound maxDepth ∧
      ({ st with waiting := rest } : State).Ready item := by
  have hknown : st.known = item.path.components :: ({ st with waiting := rest } : State).known := by
    simp [State.known, hw]
  have hdistinct := h.distinct
  rw [hknown, List.nodup_cons] at hdistinct
  have hseen := h.seen
  rw [hknown, List.forall_mem_cons] at hseen
  have hwaiting := h.waiting
  rw [hw, List.forall_mem_cons] at hwaiting
  exact ⟨⟨h.ids, h.placed, h.fits, hwaiting.2, hdistinct.2, hseen.2⟩,
    hseen.1, hdistinct.1, hwaiting.1⟩

/-! ## Entering -/

variable {item : Item} {e : Entry}

/-- A path gets its entry, with which was done what fits its depth. -/
theorem commit (h : st.Sound maxDepth) (hr : st.Ready item) (he : e.IsFor st item)
    (hfits : e.Fits maxDepth) : (st.commit e).Sound maxDepth := by
  have hknown : (st.commit e).known = st.known ++ [item.path.components] := by
    simp [State.known, State.commit, he.path]
  have hplace : st.report.Places e.parent e.depth := he.parent ▸ he.depth ▸ hr.placed
  refine ⟨?_, ?_, ?_, ?_, ?_, ?_⟩
  · simp only [State.commit, List.map_append, List.map_singleton, List.length_append,
      List.length_singleton, List.range_succ, h.ids, he.id, State.nextId]
  · intro f hf
    rcases List.mem_append.1 hf with hf | hf
    · obtain ⟨hplaced, hlt⟩ := h.placed f hf
      exact ⟨hplaced.append e, hlt⟩
    · obtain rfl := List.mem_singleton.1 hf
      exact ⟨hplace.append f, fun p hp => he.id ▸ hplace.lt hp⟩
  · intro f hf
    rcases List.mem_append.1 hf with hf | hf
    · exact h.fits f hf
    · exact List.mem_singleton.1 hf ▸ hfits
  · exact fun other hother => (h.waiting other hother).append e
  · rw [hknown, List.nodup_append]
    refine ⟨h.distinct, by simp, fun c hc d hd hcd => ?_⟩
    rw [List.mem_singleton.1 hd] at hcd
    exact hr.unknown (hcd ▸ hc)
  · intro c hc
    rw [hknown] at hc
    rcases List.mem_append.1 hc with hc | hc
    · exact h.seen c hc
    · exact List.mem_singleton.1 hc ▸ hr.seen

/-- A file that was evaluated takes what was created meanwhile one level deeper. -/
theorem places_commit (he : e.id = st.nextId) (hprocessed : e.processed = true) :
    (st.commit e).report.Places (some e.id) (e.depth + 1) := by
  refine ⟨e, ?_, hprocessed, rfl⟩
  simp [State.commit, he, State.nextId]

/-! ## Visiting -/

/-- The invariant is about the report and the paths that wait or waited. -/
theorem withFiles (h : st.Sound maxDepth) (files : FileSystem) (output : Option OutputDir)
    (events : List Event) : ({ st with files, output, events } : State).Sound maxDepth :=
  ⟨h.ids, h.placed, h.fits, h.waiting, h.distinct, h.seen⟩

/-- The file is not too deep. -/
theorem fits_of_le (h : e.depth ≤ maxDepth) : e.Fits maxDepth :=
  ⟨fun _ => h, fun hdeep => absurd h (by omega)⟩

theorem warnAll (h : st.Sound maxDepth) (messages : List String) :
    (st.warnAll messages).Sound maxDepth :=
  ⟨h.ids, h.placed, h.fits, h.waiting, h.distinct, h.seen⟩

/-- Files, output and events may change before a file that is not too deep is entered. -/
theorem commitWithFiles (h : st.Sound maxDepth) (hr : st.Ready item) (he : e.IsFor st item)
    (hdepth : e.depth ≤ maxDepth) (files : FileSystem) (output : Option OutputDir)
    (events : List Event) : (({ st with files, output, events } : State).commit e).Sound maxDepth :=
  (h.withFiles files output events).commit ⟨hr.seen, hr.unknown, hr.placed⟩
    ⟨he.id, he.path, he.parent, he.depth⟩ (fits_of_le hdepth)

/-- The file was not looked into. -/
theorem fits_fail (hprocessed : e.processed = false) (hcontent : e.content = none)
    (htrees : e.trees = []) (cause : Error) : (e.fail none cause).Fits maxDepth where
  shallow h := by
    rw [show (e.fail none cause).processed = e.processed from rfl, hprocessed] at h
    cases h
  deep _ := ⟨hcontent, htrees, by simp [Entry.fail]⟩

/-- Replacing a duplicate by a reference changes files only. -/
theorem commitDuplicate (references : References) (h : st.Sound maxDepth) (hr : st.Ready item)
    (he : e.IsFor st item) (hdepth : e.depth ≤ maxDepth) (earlier : Entry) :
    (Scan.commitDuplicate references st e earlier).Sound maxDepth := by
  have hmarked : Entry.IsFor { e with duplicateOf := some earlier.id } st item :=
    ⟨he.id, he.path, he.parent, he.depth⟩
  unfold Scan.commitDuplicate
  split
  · exact h.commitWithFiles hr hmarked hdepth st.files st.output st.events
  · dsimp only
    split
    · split
      · next files _ => exact h.commitWithFiles hr hmarked hdepth files st.output st.events
      · next cause files _ =>
        have hfailed : (Entry.fail { e with duplicateOf := some earlier.id } none cause).IsFor st
            item :=
          ⟨he.id, he.path, he.parent, he.depth⟩
        exact h.commitWithFiles hr hfailed hdepth files st.output st.events
    · exact h.commitWithFiles hr hmarked hdepth st.files st.output st.events

/-- The file is entered before the files that its rules created wait. -/
theorem conclude (setup : Setup) (h : st.Sound maxDepth) (hr : st.Ready item)
    (he : e.IsFor st item) (hdepth : e.depth ≤ maxDepth) (ms : List Match) (session : Session) :
    (Scan.conclude setup st e ms session).1.Sound maxDepth := by
  unfold Scan.conclude
  dsimp only
  split
  · exact h.withFiles session.files session.output st.events
  · let e' := concluded setup.env.rules e ms session.effects
    have hconcluded : e'.IsFor st item := ⟨he.id, he.path, he.parent, he.depth⟩
    have hcommit := h.commitWithFiles hr hconcluded hdepth session.files session.output
      (st.events ++ matchEvents e')
    exact hcommit.enqueueAll (places_commit he.id rfl) session.effects.created

/-- What the rules find in the file does not matter. -/
theorem evaluateFile (setup : Setup) (h : st.Sound maxDepth) (hr : st.Ready item)
    (he : e.IsFor st item) (hdepth : e.depth ≤ maxDepth) (content : Bytes) :
    (Scan.evaluateFile setup st e content).1.Sound maxDepth := by
  have hst := h.withFiles st.files st.output (st.events ++ [.started e])
  exact hst.conclude setup ⟨hr.seen, hr.unknown, hr.placed⟩
    ⟨he.id, he.path, he.parent, he.depth⟩ hdepth _ _

theorem visitFile (setup : Setup) (h : st.Sound setup.config.maxDepth) (hr : st.Ready item)
    (he : e.IsFor st item) (hprocessed : e.processed = false) (hcontent : e.content = none)
    (htrees : e.trees = []) :
    (Scan.visitFile setup st e).1.Sound setup.config.maxDepth := by
  have hfail : ∀ cause, (st.commit (e.fail none cause)).Sound setup.config.maxDepth := fun cause =>
    h.commit hr ⟨he.id, he.path, he.parent, he.depth⟩
      (fits_fail hprocessed hcontent htrees cause)
  unfold Scan.visitFile
  split
  · exact hfail _
  · next hdepth =>
    have hle : e.depth ≤ setup.config.maxDepth := by omega
    split
    · exact hfail _
    · next content _ =>
      have hread : Entry.IsFor { e with content := some content } st item :=
        ⟨he.id, he.path, he.parent, he.depth⟩
      dsimp only
      split
      · exact h.commitDuplicate setup.system.references hr hread hle _
      · exact h.evaluateFile setup hr hread hle content

/-- Every way of dealing with a path keeps the invariant. -/
theorem visit (setup : Setup) (h : st.Sound setup.config.maxDepth) (hr : st.Ready item) :
    (Scan.visit setup st item).1.Sound setup.config.maxDepth := by
  unfold Scan.visit
  cases look setup st.files item.path with
  | unreadable cause =>
      exact h.commit hr ⟨rfl, rfl, rfl, rfl⟩ (fits_fail rfl rfl rfl _)
  | rejected => exact h.warnAll _
  | directory names faults => exact (h.warnAll faults).enqueueAll hr.placed _
  | irregular => exact h.warnAll _
  | file size => exact h.visitFile setup hr ⟨rfl, rfl, rfl, rfl⟩ rfl rfl rfl

/-! ## Whole scans -/

/-- The induction is on the budget: each path that is taken from the list leads from one
sound state to the next. -/
theorem run (setup : Setup) (budget : Nat) (h : st.Sound setup.config.maxDepth) {r : Report}
    (hr : (Scan.run setup budget st).outcome = .finished r) :
    r.IsForest setup.config.maxDepth := by
  induction budget generalizing st with
  | zero => cases hr
  | succ budget ih =>
      unfold Scan.run at hr
      cases hw : st.waiting with
      | nil =>
          simp only [hw, Outcome.finished.injEq] at hr
          exact hr ▸ h.isForest
      | cons item rest =>
          obtain ⟨hpop, hready⟩ := h.pop hw
          have hvisit := hpop.visit setup hready
          simp only [hw] at hr
          split at hr
          · cases hr
          · next st' hst' =>
            rw [hst'] at hvisit
            exact ih hvisit hr

/-- Before anything has happened there is nothing to place. -/
theorem start (maxDepth : Nat) (files : FileSystem) (output : Option OutputDir) :
    (State.start files output).Sound maxDepth :=
  ⟨rfl, nofun, nofun, nofun, List.nodup_nil, nofun⟩

end State.Sound

/--
**The forest of a scan.**  Whatever the file system, the rules, their operators, the inputs
and the configuration, the entries of the report are numbered in order, have different
paths, and form a forest: inputs are at depth zero, every other file one level below an
earlier one that was evaluated.  Files up to the depth limit may be evaluated; those one
level below it are entered with an error and nothing else, and none is deeper.
-/
theorem scanWithin_isForest (budget : Nat) (setup : Setup) (files : FileSystem)
    (inputs : List Path) {r : Report}
    (h : (scanWithin budget setup files inputs).outcome = .finished r) :
    r.IsForest setup.config.maxDepth := by
  unfold scanWithin at h
  split at h
  · cases h
  · next output files' _ =>
    have hstart := State.Sound.start setup.config.maxDepth files' output
    have hplace : (State.start files' output).report.Places none 0 := rfl
    exact (hstart.enqueueAll hplace inputs).run setup budget h

/-- A rule that writes a file `x` whatever it is evaluated against. -/
def writingRule : Rule :=
  { Rule.new "w" "r" with
    actions := [⟨.call "Write" [.literal (.bytes [120]), .literal (.bytes [1])] ∅, .record⟩] }

/-- A scan that evaluates inputs only. -/
def writingSetup : Setup where
  env := ⟨⟨#[writingRule], ∅, [0], ∅⟩, .builtins⟩
  config := { maxDepth := 0, output := some "out" }

theorem scanWithin_isForest_writing :
    ∃ r, (scanWithin 4 writingSetup ⟨Table.ofList [(["a"], .file [7])], []⟩ ["a"]).outcome =
        .finished r ∧
      r.entries.map (fun e => (e.path, e.parent, e.depth, e.processed)) =
        [("a", none, 0, true), ("out/x", some 0, 1, false)] ∧
      r.IsForest 0 := by
  have hshape : ((scanWithin 4 writingSetup ⟨Table.ofList [(["a"], .file [7])], []⟩
      ["a"]).outcome.report?.map fun r =>
        r.entries.map fun e => (e.path, e.parent, e.depth, e.processed)) =
      some [("a", none, 0, true), ("out/x", some 0, 1, false)] := by
    decide +kernel
  cases hout : (scanWithin 4 writingSetup ⟨Table.ofList [(["a"], .file [7])], []⟩
      ["a"]).outcome with
  | finished r =>
      rw [hout] at hshape
      exact ⟨r, rfl, Option.some.inj hshape, scanWithin_isForest 4 writingSetup _ ["a"] hout⟩
  | aborted cause =>
      rw [hout] at hshape
      cases hshape
  | exhausted =>
      rw [hout] at hshape
      cases hshape

end RuleScan.Scan
