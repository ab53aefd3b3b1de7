import RuleScan.Proofs.Scan.Visits

/-!
# What a scan tells

A scan tells what it does while it goes on; its report is there in the end.  The two agree.
What is told about a file can be read off its entry (`Entry.told`): that its rules are about to
be evaluated, if its content was new, then its matches and its tags, and that it is done with.
The events of a scan are what is told about its entries, one entry after the other.

So whoever counts the events as they come, ends up with the counts that the report shows.

## Main results

* `Tells.visit` — a visit tells about the entry that it adds, and about nothing else.
* `run_tells` — the events of a scan are what is told about its entries.
* `statistics_flatMap_told` — counting what is told about entries is counting in the entries.
* `scanWithin_statistics` — the statistics of a scan are those of its report.
-/

namespace RuleScan.Scan

/-! ## What is told about an entry -/

/-- The file was read, and no earlier one has its content. -/
def Entry.isNew (e : Entry) : Bool := e.content.isSome && e.duplicateOf.isNone

/-- The entry of a file as it was when the file had been read. -/
def Entry.asRead (e : Entry) : Entry :=
  { Entry.new e.id e.path e.parent e.depth with size := e.size, content := e.content }

/-- What is told about a file with this entry. -/
def Entry.told (e : Entry) : List Event :=
  (if e.isNew then [.started e.asRead] else []) ++ matchEvents e ++ [.finished e]

/-- About a file against which no rules were evaluated it is told that it is done with. -/
theorem Entry.told_eq_finished {e : Entry} (hnew : e.isNew = false) (htrees : e.trees = [])
    (htags : e.tags = []) : e.told = [.finished e] := by
  simp [told, hnew, matchEvents, leaves, htrees, htags]

/-- So far, what was told is what is told about the entries. -/
def State.Tells (st : State) : Prop := st.events = st.report.entries.flatMap Entry.told

theorem State.events_enqueueAll (st : State) (parent : Option FileId) (depth : Nat)
    (paths : List Path) : (st.enqueueAll parent depth paths).events = st.events := by
  unfold State.enqueueAll
  induction paths with
  | nil => rfl
  | cons p rest ih =>
      rw [List.foldr_cons, State.enqueue]
      split
      · exact ih
      · exact ih

namespace State.Tells

variable {st st' : State} {e : Entry}

theorem enqueueAll (h : st.Tells) (parent : Option FileId) (depth : Nat) (paths : List Path) :
    (st.enqueueAll parent depth paths).Tells := by
  rw [State.Tells, State.events_enqueueAll, State.report_enqueueAll]
  exact h

/-- An entry is made after all but its end was told. -/
theorem commit (h : st.Tells) {told : List Event} (he : e.told = told ++ [.finished e])
    (files : FileSystem) (output : Option OutputDir) :
    (({ st with files, output, events := st.events ++ told } : State).commit e).Tells := by
  have hevents : st.events = st.report.entries.flatMap Entry.told := h
  simp only [State.Tells, State.commit, List.flatMap_append, List.flatMap_singleton, he, hevents,
    List.append_assoc]

/-- An entry is made for a file against which no rules were evaluated. -/
theorem commitUnevaluated (h : st.Tells) (files : FileSystem) (hnew : e.isNew = false)
    (htrees : e.trees = []) (htags : e.tags = []) :
    (({ st with files } : State).commit e).Tells := by
  have htold : e.told = [] ++ [.finished e] := Entry.told_eq_finished hnew htrees htags
  have hcommit := h.commit htold files st.output
  rwa [List.append_nil] at hcommit

/-- Whether or not it becomes a reference, a duplicate is told of once. -/
theorem commitDuplicate (h : st.Tells) (htrees : e.trees = []) (htags : e.tags = [])
    (references : References) (earlier : Entry) :
    (Scan.commitDuplicate references st e earlier).Tells := by
  obtain ⟨files, e', heq, he'⟩ := commitDuplicate_eq references st e earlier
  rw [heq]
  rcases he' with rfl | ⟨cause, rfl⟩
  · exact h.commitUnevaluated files (by simp [Entry.isNew]) htrees htags
  · exact h.commitUnevaluated files (by simp [Entry.isNew, Entry.fail]) htrees htags

/-- A file that was read has its entry made after its rules were evaluated. -/
theorem evaluateFile (setup : Setup) (h : st.Tells) (hread : e.asRead = e) {content : Bytes}
    (hcontent : e.content = some content) (hmark : e.duplicateOf = none)
    (hvisit : Scan.evaluateFile setup st e content = (st', none)) : st'.Tells := by
  unfold Scan.evaluateFile conclude at hvisit
  dsimp only at hvisit
  split at hvisit
  · cases hvisit
  · generalize (evaluateContent setup (st.emit [.started e]) e content).2 = session at hvisit
    generalize (evaluateContent setup (st.emit [.started e]) e content).1 = ms at hvisit
    have htold : (concluded setup.env.rules e ms session.effects).told =
        [.started e] ++ matchEvents (concluded setup.env.rules e ms session.effects) ++
          [.finished (concluded setup.env.rules e ms session.effects)] := by
      have hnew : (concluded setup.env.rules e ms session.effects).isNew = true := by
        simp [Entry.isNew, concluded, hcontent, hmark]
      have hstart : (concluded setup.env.rules e ms session.effects).asRead = e := hread
      rw [Entry.told, hnew, hstart, if_pos rfl]
    have hcommit := (h.commit htold session.files session.output).enqueueAll
      (some (concluded setup.env.rules e ms session.effects).id)
      ((concluded setup.env.rules e ms session.effects).depth + 1) session.effects.created
    cases hvisit
    simpa only [State.emit, List.append_assoc] using hcommit

theorem visitFile (setup : Setup) (h : st.Tells) (hread : e.asRead = e)
    (hcontent : e.content = none) (hmark : e.duplicateOf = none) (htrees : e.trees = [])
    (htags : e.tags = [])
    (hvisit : Scan.visitFile setup st e = (st', none)) : st'.Tells := by
  have hfail : ∀ cause, (st.commit (e.fail none cause)).Tells := fun cause =>
    h.commitUnevaluated st.files (by simp [Entry.isNew, Entry.fail, hcontent]) htrees htags
  unfold Scan.visitFile at hvisit
  split at hvisit
  · cases hvisit
    exact hfail _
  · split at hvisit
    · cases hvisit
      exact hfail _
    · next content _ =>
      dsimp only at hvisit
      split at hvisit
      · cases hvisit
        exact h.commitDuplicate (e := { e with content := some content }) htrees htags _ _
      · refine h.evaluateFile (e := { e with content := some content }) setup ?_ rfl hmark hvisit
        rw [← hread]
        rfl

/-- A visit tells about the entry that it adds, and about nothing else. -/
theorem visit (setup : Setup) (h : st.Tells) {item : Item}
    (hvisit : Scan.visit setup st item = (st', none)) : st'.Tells := by
  unfold Scan.visit at hvisit
  cases hlook : look setup st.files item.path with
  | unreadable cause =>
      rw [hlook] at hvisit
      cases hvisit
      exact h.commitUnevaluated st.files rfl rfl rfl
  | rejected =>
      rw [hlook] at hvisit
      cases hvisit
      exact h
  | directory names faults =>
      rw [hlook] at hvisit
      cases hvisit
      have hwarned : (st.warnAll faults).Tells := h
      exact hwarned.enqueueAll _ _ _
  | irregular =>
      rw [hlook] at hvisit
      cases hvisit
      exact h
  | file size =>
      rw [hlook] at hvisit
      exact h.visitFile setup rfl rfl rfl rfl rfl hvisit

end State.Tells

/-! ## Whole scans -/

theorem Works.tells {setup : Setup} {st last : State} {vs : List Visit}
    (h : Works setup st vs last) (hst : st.Tells) : last.Tells := by
  refine h.preserves (fun _ st => st.Tells) ?_ hst
  intro _ st st' item rest hst _ hvisit
  have hrest : ({ st with waiting := rest } : State).Tells := hst
  exact hrest.visit setup hvisit

/-- The events of a scan are what is told about its entries. -/
theorem run_tells {setup : Setup} {budget : Nat} {st : State} (hst : st.Tells) {r : Report}
    (h : (run setup budget st).outcome = .finished r) :
    (run setup budget st).events = r.entries.flatMap Entry.told := by
  have hends := run_ends setup budget st
  generalize visits setup budget st = vs, run setup budget st = result at h hends ⊢
  cases hends with
  | finished hworks _ =>
      obtain rfl := Outcome.finished.inj h
      exact hworks.tells hst
  | aborted => cases h
  | exhausted => cases h

/-! ## Counting -/

/-- The statistics that a report shows. -/
def Report.statistics (r : Report) : Statistics where
  evaluated := r.entries.countP Entry.isNew
  finished := r.entries.length
  matched := (r.entries.flatMap Entry.leaves).length
  tagged := (r.entries.flatMap Entry.tags).length
  failed := r.entries.countP Entry.hasErrors

theorem statistics_map_matched (e : Entry) (ms : List Match) :
    statistics (ms.map (.matched e)) = { Statistics.zero with matched := ms.length } := by
  induction ms with
  | nil => rfl
  | cons m rest ih =>
      rw [List.map_cons, ← List.singleton_append, statistics_append, ih]
      simp [statistics, Event.statistics, Statistics.add, Statistics.zero, Nat.add_comm]

theorem statistics_map_tagged (e : Entry) (tags : List String) :
    statistics (tags.map (.tagged e)) = { Statistics.zero with tagged := tags.length } := by
  induction tags with
  | nil => rfl
  | cons tag rest ih =>
      rw [List.map_cons, ← List.singleton_append, statistics_append, ih]
      simp [statistics, Event.statistics, Statistics.add, Statistics.zero, Nat.add_comm]

theorem statistics_told (e : Entry) :
    statistics e.told =
      ⟨if e.isNew then 1 else 0, 1, e.leaves.length, e.tags.length,
        if e.hasErrors then 1 else 0⟩ := by
  have hstart : statistics (if e.isNew then [.started e.asRead] else []) =
      { Statistics.zero with evaluated := if e.isNew then 1 else 0 } := by
    cases e.isNew <;> rfl
  rw [Entry.told, statistics_append, statistics_append, matchEvents, statistics_append, hstart,
    statistics_map_matched, statistics_map_tagged]
  simp [statistics, Event.statistics, Statistics.add, Statistics.zero]

/-- Counting what is told about entries is counting in the entries. -/
theorem statistics_flatMap_told (es : List Entry) (warnings : List String) :
    statistics (es.flatMap Entry.told) = Report.statistics ⟨es, warnings⟩ := by
  induction es with
  | nil => rfl
  | cons e rest ih =>
      rw [List.flatMap_cons, statistics_append, ih, statistics_told]
      simp only [Report.statistics, Statistics.add, List.countP_cons, List.length_cons,
        List.flatMap_cons, List.length_append, Nat.add_comm]

/--
**The statistics of a scan are those of its report.**  Whatever the file system, the rules, their
operators, the inputs and the configuration: if a scan has a report, the events that it told of
count as many files done with as there are entries, as many files with errors as there are
entries with errors, as many files evaluated as there are entries whose content was read and that
are no duplicates, as many matches as there are leaves in the match trees of all entries, and as
many tags as all entries have.
-/
theorem scanWithin_statistics (budget : Nat) (setup : Setup) (files : FileSystem)
    (inputs : List Path) {r : Report}
    (h : (scanWithin budget setup files inputs).outcome = .finished r) :
    statistics (scanWithin budget setup files inputs).events = r.statistics := by
  unfold scanWithin at h ⊢
  split at h
  · cases h
  · next output files' _ =>
    have hstart : (State.start files' output).Tells := rfl
    rw [run_tells (hstart.enqueueAll none 0 inputs) h]
    exact statistics_flatMap_told r.entries r.warnings

/-- A rule with two tags that matches every file and writes a file `x`. -/
def taggingRule : Rule :=
  { writingRule with metadata := (∅ : Register).set "tag" (.text "a,b") }

/-- A scan that evaluates inputs only. -/
def taggingSetup : Setup where
  env := ⟨⟨#[taggingRule], ∅, [0], ∅⟩, .builtins⟩
  config := { maxDepth := 0, output := some "out" }

/-- Of three inputs one is evaluated, one is its duplicate and one is missing; the file that is
extracted is too deep. -/
theorem scanWithin_statistics_tagging :
    ∃ r, (scanWithin 5 taggingSetup ⟨Table.ofList [(["a"], .file [7]), (["b"], .file [7])], []⟩
        ["a", "b", "c"]).outcome = .finished r ∧
      r.statistics = ⟨1, 4, 1, 2, 2⟩ ∧
      statistics (scanWithin 5 taggingSetup
        ⟨Table.ofList [(["a"], .file [7]), (["b"], .file [7])], []⟩ ["a", "b", "c"]).events =
          r.statistics := by
  have hshape : ((scanWithin 5 taggingSetup
      ⟨Table.ofList [(["a"], .file [7]), (["b"], .file [7])], []⟩
      ["a", "b", "c"]).outcome.report?.map Report.statistics) = some ⟨1, 4, 1, 2, 2⟩ := by
    decide +kernel
  obtain ⟨r, hout, hr⟩ := Outcome.finished_of_map hshape
  exact ⟨r, hout, hr, scanWithin_statistics 5 taggingSetup _ _ hout⟩

end RuleScan.Scan
