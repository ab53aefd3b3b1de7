import RuleScan.Proofs.Evaluation.Ledger
import RuleScan.Proofs.Scan.Forest

/-!
# The visits of a scan

A scan is a sequence of visits, each of which takes the next path from the list and deals with
it.  `visits` lists them, each with the state that the path was taken from, so that statements
about a scan can speak of what happened on the way: which paths were visited, and in which
session the rules were evaluated against a file (`Visit.evaluation?`).

What a visit can do is said once, in `Visited`; what follows from a whole scan is an induction
over its visits, which is done once, in `Works.preserves`.  An invariant may look at the visits
that are past as well as at the state.

## Main results

* `visited` — the six ways in which a path is dealt with.
* `run_ends` — how a scan ends, and by which visits it gets there.
* `Works.preserves` — what every visit preserves holds in the end.
* `waiting_enqueueAll`, `mem_seen_enqueueAll` — which paths wait from then on.
* `gained_of_evaluation` — evaluating a file with the built-in operators deposits files.
* `handsOut_of_evaluation` — and gives them paths that were free.
-/

namespace RuleScan.Scan

/-- A path that is dealt with, and the state it was taken from, where it waits no longer. -/
structure Visit where
  before : State
  item : Item

/-- The visits by which a scan works off the paths that wait, at most so many of them. -/
def visits (setup : Setup) : Nat → State → List Visit
  | 0, _ => []
  | budget + 1, st =>
    match st.waiting with
    | [] => []
    | item :: rest =>
      ⟨{ st with waiting := rest }, item⟩ ::
        match visit setup { st with waiting := rest } item with
        | (_, some _) => []
        | (st, none) => visits setup budget st

/-- The visits of a scan of inputs and everything extracted from them, within a budget. -/
def visitsWithin (budget : Nat) (setup : Setup) (files : FileSystem) (inputs : List Path) :
    List Visit :=
  match openOutput setup.config files with
  | (.error _, _) => []
  | (.ok output, files) =>
    visits setup budget ((State.start files output).enqueueAll none 0 inputs)

/-! ## What is found in a directory -/

theorem Finding.ofNode_directory {system : System} {fs : FileSystem} {p : Path} {node : Node}
    {names faults : List String} (h : Finding.ofNode system fs p node = .directory names faults) :
    node = .directory ∧ names = (system.list fs p).names ∧ faults = (system.list fs p).faults := by
  cases node with
  | directory =>
      cases h
      exact ⟨rfl, rfl, rfl⟩
  | file content => cases h
  | link target => cases h
  | device => cases h

/-- What counts as a directory is what the system lists. -/
theorem look_directory_names {setup : Setup} {fs : FileSystem} {p : Path}
    {names faults : List String} (h : look setup fs p = .directory names faults) :
    names.Sublist (fs.namesIn p) ∧ (faults = [] → names = fs.namesIn p) := by
  have hlisted : ∀ {node}, Finding.ofNode setup.system fs p node = .directory names faults →
      names.Sublist (fs.namesIn p) ∧ (faults = [] → names = fs.namesIn p) := by
    intro node hnode
    obtain ⟨-, rfl, rfl⟩ := Finding.ofNode_directory hnode
    exact ⟨(setup.system.list fs p).sublist, (setup.system.list fs p).complete⟩
  unfold look at h
  split at h
  · cases h
  · split at h
    · split at h
      · cases h
      · exact hlisted h
    · cases h
  · exact hlisted h

/-! ## What a visit does -/

/-- The entry of a path that is dealt with, before its content is known. -/
def State.entryFor (st : State) (item : Item) (size : Nat) : Entry :=
  { Entry.new st.nextId item.path item.parent item.depth with size }

/-- The entry of a file that was read. -/
def State.readEntryFor (st : State) (item : Item) (size : Nat) (content : Bytes) : Entry :=
  { st.entryFor item size with content := some content }

/-- The session in which the rules are evaluated against a file that was read. -/
def openSession (setup : Setup) (st : State) (item : Item) (size : Nat) (content : Bytes) :
    Session :=
  Session.start st.files (.ofFile item.path content)
    (fileGlobals setup.config (st.readEntryFor item size content) st.output) st.output

/-- The session after the rules were evaluated. -/
def closeSession (setup : Setup) (s : Session) : Session :=
  (evaluateRoots setup.env setup.env.rules.schedule s).2

/-- The sessions before and after the evaluation of the rules, if it comes to that: the path leads
to a file that is not too deep, can be read and has a new content. -/
def Visit.evaluation? (setup : Setup) (v : Visit) : Option (Session × Session) :=
  match look setup v.before.files v.item.path with
  | .file size =>
    if setup.config.maxDepth < v.item.depth then none
    else
      match v.before.files.readFile v.item.path with
      | .error _ => none
      | .ok content =>
        match v.before.entryWith? setup content with
        | some _ => none
        | none =>
          let s := openSession setup v.before v.item size content
          some (s, closeSession setup s)
  | _ => none

/-- The paths that the evaluation created and did not discard. -/
def Visit.created (setup : Setup) (v : Visit) : List Path :=
  match v.evaluation? setup with
  | some (_, t) => t.effects.created
  | none => []

/--
The ways of dealing with a path: the sessions of the evaluation if there is one, the state
afterwards, and the failure that ends the scan.
-/
inductive Visited (setup : Setup) (st : State) (item : Item) :
    Option (Session × Session) → State → Option Error → Prop
  | failed (size : Nat) (cause : Error) :
      Visited setup st item none (st.commit ((st.entryFor item size).fail none cause)) none
  | warned (message : String)
      (hlook : look setup st.files item.path = .rejected ∨
        look setup st.files item.path = .irregular) :
      Visited setup st item none (st.warn message) none
  | expanded (names faults : List String)
      (hlook : look setup st.files item.path =
        .directory names faults) :
      Visited setup st item none
        ((st.warnAll faults).enqueueAll item.parent item.depth (names.map item.path.join)) none
  | duplicate (size : Nat) (content : Bytes) (earlier : Entry)
      (hlook : look setup st.files item.path = .file size)
      (hread : st.files.readFile item.path = .ok content)
      (hold : st.entryWith? setup content = some earlier) :
      Visited setup st item none
        (commitDuplicate setup.system.references st (st.readEntryFor item size content) earlier)
        none
  | aborted (size : Nat) (content : Bytes) (s t : Session) (events : List Event) (cause : Error)
      (hlook : look setup st.files item.path = .file size)
      (hs : s = openSession setup st item size content) (ht : t = closeSession setup s) :
      Visited setup st item (some (s, t))
        { st with files := t.files, output := t.output, events } (some cause)
  | evaluated (size : Nat) (content : Bytes) (s t : Session) (events : List Event) (e : Entry)
      (ms : List Match) (hlook : look setup st.files item.path = .file size)
      (hread : st.files.readFile item.path = .ok content)
      (hnew : st.entryWith? setup content = none) (hs : s = openSession setup st item size content)
      (ht : t = closeSession setup s)
      (he : e = concluded setup.env.rules (st.readEntryFor item size content) ms t.effects) :
      Visited setup st item (some (s, t))
        ((({ st with files := t.files, output := t.output, events } : State).commit e).enqueueAll
          (some e.id) (e.depth + 1) t.effects.created) none

section Visiting

variable {setup : Setup} {st : State} {item : Item} {size : Nat}

theorem visit_file
    (hlook : look setup st.files item.path = .file size) :
    visit setup st item = visitFile setup st (st.entryFor item size) := by
  rw [visit, hlook]
  rfl

theorem evaluation?_file
    (hlook : look setup st.files item.path = .file size)
    (hdepth : ¬ setup.config.maxDepth < item.depth) {content : Bytes}
    (hread : st.files.readFile item.path = .ok content) :
    Visit.evaluation? setup ⟨st, item⟩ =
      match st.entryWith? setup content with
      | some _ => none
      | none =>
        some (openSession setup st item size content,
          closeSession setup (openSession setup st item size content)) := by
  simp only [Visit.evaluation?, hlook, if_neg hdepth, hread]

theorem visitFile_new {content : Bytes} (hnew : st.entryWith? setup content = none)
    (hdepth : ¬ setup.config.maxDepth < (st.entryFor item size).depth)
    (hread : st.files.readFile (st.entryFor item size).path = .ok content) :
    visitFile setup st (st.entryFor item size) =
      evaluateFile setup st (st.readEntryFor item size content) content := by
  rw [visitFile, if_neg hdepth]
  simp only [hread, hnew]
  rfl

theorem visited (setup : Setup) (st : State) (item : Item) :
    Visited setup st item (Visit.evaluation? setup ⟨st, item⟩) (visit setup st item).1
      (visit setup st item).2 := by
  cases hlook : look setup st.files item.path with
  | unreadable cause =>
      simp only [Visit.evaluation?, visit, hlook]
      exact .failed 0 _
  | rejected =>
      simp only [Visit.evaluation?, visit, hlook]
      exact .warned _ (.inl hlook)
  | directory names faults =>
      simp only [Visit.evaluation?, visit, hlook]
      exact .expanded names faults hlook
  | irregular =>
      simp only [Visit.evaluation?, visit, hlook]
      exact .warned _ (.inr hlook)
  | file size =>
      rw [visit_file hlook]
      by_cases hdepth : setup.config.maxDepth < item.depth
      · have hdepth' : setup.config.maxDepth < (st.entryFor item size).depth := hdepth
        rw [visitFile, if_pos hdepth']
        simp only [Visit.evaluation?, hlook, if_pos hdepth]
        exact .failed size _
      have hdepth' : ¬ setup.config.maxDepth < (st.entryFor item size).depth := hdepth
      cases hread : st.files.readFile item.path with
      | error cause =>
          have hread' : st.files.readFile (st.entryFor item size).path = .error cause := hread
          rw [visitFile, if_neg hdepth']
          simp only [Visit.evaluation?, hlook, if_neg hdepth, hread, hread']
          exact .failed size _
      | ok content =>
          have hread' : st.files.readFile (st.entryFor item size).path = .ok content := hread
          rw [evaluation?_file hlook hdepth hread]
          cases hold : st.entryWith? setup content with
          | some earlier =>
              rw [visitFile, if_neg hdepth']
              simp only [hread', hold]
              exact .duplicate size content earlier hlook hread hold
          | none =>
              rw [visitFile_new hold hdepth' hread', evaluateFile]
              unfold conclude
              dsimp only
              split
              · exact .aborted size content _ _ _ _ hlook rfl rfl
              · exact .evaluated size content _ _ _ _ _ hlook hread hold rfl rfl rfl

theorem visited_of_visit {st' : State} {cause : Option Error}
    (h : visit setup st item = (st', cause)) :
    Visited setup st item (Visit.evaluation? setup ⟨st, item⟩) st' cause := by
  have hvisited := visited setup st item
  rwa [h] at hvisited

/-- An evaluation starts from the files of the state, with nothing created yet. -/
theorem evaluation?_eq_some {v : Visit} {s t : Session} (h : v.evaluation? setup = some (s, t)) :
    s.files = v.before.files ∧ s.output = v.before.output ∧ s.effects.created = [] ∧
      t = closeSession setup s := by
  have hvisited := visited setup v.before v.item
  rw [show Visit.evaluation? setup ⟨v.before, v.item⟩ = some (s, t) from h] at hvisited
  generalize (visit setup v.before v.item).1 = st', (visit setup v.before v.item).2 = cause
    at hvisited
  cases hvisited with
  | aborted size content s t events cause hlook hs ht =>
      subst hs
      exact ⟨rfl, rfl, rfl, ht⟩
  | evaluated size content s t events e ms hlook hread hnew hs ht he =>
      subst hs
      exact ⟨rfl, rfl, rfl, ht⟩

/-- What a visit after which the scan goes on does to the report and to the list: the path gets
its entry, or a warning, or is replaced by what is in it. -/
inductive Proceeds (setup : Setup) (st : State) (item : Item) : State → Prop
  | entered (files : FileSystem) (output : Option OutputDir) (events : List Event) (e : Entry)
      (he : e.IsFor st item) :
      Proceeds setup st item
        ((({ st with files, output, events } : State).commit e).enqueueAll (some e.id)
          (e.depth + 1) (Visit.created setup ⟨st, item⟩))
  | warned (message : String)
      (hlook : look setup st.files item.path = .rejected ∨
        look setup st.files item.path = .irregular)
      (hcreated : Visit.created setup ⟨st, item⟩ = []) :
      Proceeds setup st item (st.warn message)
  | expanded (names faults : List String)
      (hlook : look setup st.files item.path =
        .directory names faults)
      (hcreated : Visit.created setup ⟨st, item⟩ = []) :
      Proceeds setup st item
        ((st.warnAll faults).enqueueAll item.parent item.depth (names.map item.path.join))

/-- The state in which a duplicate is entered, whether or not it becomes a reference. -/
theorem commitDuplicate_eq (references : References) (st : State) (e earlier : Entry) :
    ∃ files e', commitDuplicate references st e earlier = ({ st with files } : State).commit e' ∧
      (e' = { e with duplicateOf := some earlier.id } ∨
        ∃ cause, e' = Entry.fail { e with duplicateOf := some earlier.id } none cause) := by
  unfold commitDuplicate
  dsimp only
  split
  · exact ⟨st.files, _, rfl, .inl rfl⟩
  · split
    · split
      · next files _ => exact ⟨files, _, rfl, .inl rfl⟩
      · next cause files _ => exact ⟨files, _, rfl, .inr ⟨cause, rfl⟩⟩
    · exact ⟨st.files, _, rfl, .inl rfl⟩

theorem proceeds {st' : State} (h : visit setup st item = (st', none)) :
    Proceeds setup st item st' := by
  have hvisited := visited_of_visit h
  have hquiet : Visit.evaluation? setup ⟨st, item⟩ = none → Visit.created setup ⟨st, item⟩ = [] :=
    fun hnone => by rw [Visit.created, hnone]
  generalize hev : Visit.evaluation? setup ⟨st, item⟩ = sessions at hvisited
  cases hvisited with
  | failed size cause =>
      have hentered : Proceeds setup st item _ := .entered st.files st.output st.events
        ((st.entryFor item size).fail none cause) ⟨rfl, rfl, rfl, rfl⟩
      rwa [hquiet hev] at hentered
  | warned message hlook => exact .warned message hlook (hquiet hev)
  | expanded names faults hlook => exact .expanded names faults hlook (hquiet hev)
  | duplicate size content earlier hlook hread hold =>
      obtain ⟨files, e, heq, he⟩ :=
        commitDuplicate_eq setup.system.references st (st.readEntryFor item size content) earlier
      have hfor : e.IsFor st item := by
        rcases he with rfl | ⟨cause, rfl⟩ <;> exact ⟨rfl, rfl, rfl, rfl⟩
      have hentered : Proceeds setup st item _ := .entered files st.output st.events e hfor
      rw [hquiet hev] at hentered
      rw [heq]
      exact hentered
  | evaluated size content s t events e ms hlook hread hnew hs ht he =>
      have hfor : e.IsFor st item := he ▸ ⟨rfl, rfl, rfl, rfl⟩
      have hcreated : Visit.created setup ⟨st, item⟩ = t.effects.created := by
        rw [Visit.created, hev]
      rw [← hcreated]
      exact .entered t.files t.output events e hfor

end Visiting

/-! ## Whole scans -/

/-- A scan gets from one state to another by these visits. -/
inductive Works (setup : Setup) : State → List Visit → State → Prop
  | rest (st : State) : Works setup st [] st
  | go {st st' last : State} {item : Item} {rest : List Item} {vs : List Visit}
      (hwaiting : st.waiting = item :: rest)
      (hvisit : visit setup { st with waiting := rest } item = (st', none))
      (h : Works setup st' vs last) :
      Works setup st (⟨{ st with waiting := rest }, item⟩ :: vs) last

/-- What every visit preserves holds in the end.  The invariant may depend on the visits so
far. -/
theorem Works.preserves {setup : Setup} (I : List Visit → State → Prop)
    (hstep : ∀ (past : List Visit) (st st' : State) (item : Item) (rest : List Item), I past st →
      st.waiting = item :: rest → visit setup { st with waiting := rest } item = (st', none) →
      I (past ++ [⟨{ st with waiting := rest }, item⟩]) st')
    {st last : State} {vs : List Visit} (h : Works setup st vs last) (hI : I [] st) :
    I vs last := by
  suffices hall : ∀ past, I past st → I (past ++ vs) last from hall [] hI
  clear hI
  induction h with
  | rest st =>
      intro past hI
      rwa [List.append_nil]
  | @go st st' last item rest vs hwaiting hvisit _ ih =>
      intro past hI
      have hnext := hstep past st st' item rest hI hwaiting hvisit
      have hlast := ih _ hnext
      rwa [List.append_assoc] at hlast

/-- The entries remain a forest. -/
theorem Works.sound {setup : Setup} {st last : State} {vs : List Visit}
    (h : Works setup st vs last) (hs : st.Sound setup.config.maxDepth) :
    last.Sound setup.config.maxDepth := by
  refine h.preserves (fun _ st => st.Sound setup.config.maxDepth) ?_ hs
  intro past st st' item rest hs hwaiting hvisit
  obtain ⟨hpop, hready⟩ := hs.pop hwaiting
  have hnext := hpop.visit setup hready
  rwa [hvisit] at hnext

/-- How a scan ends: with nothing left, with a failure, or with its budget used up. -/
inductive Ends (setup : Setup) (st : State) : List Visit → Result → Prop
  | finished {vs : List Visit} {last : State} (h : Works setup st vs last)
      (hwaiting : last.waiting = []) :
      Ends setup st vs ⟨.finished last.report, last.files, last.events⟩
  | aborted {vs : List Visit} {last st' : State} {item : Item} {rest : List Item} {cause : Error}
      (h : Works setup st vs last) (hwaiting : last.waiting = item :: rest)
      (hvisit : visit setup { last with waiting := rest } item = (st', some cause)) :
      Ends setup st (vs ++ [⟨{ last with waiting := rest }, item⟩])
        ⟨.aborted cause, st'.files, st'.events⟩
  | exhausted {vs : List Visit} {last : State} (h : Works setup st vs last) :
      Ends setup st vs ⟨.exhausted, last.files, last.events⟩

/-- One more visit in front. -/
theorem Ends.go {setup : Setup} {st st' : State} {item : Item} {rest : List Item}
    {vs : List Visit} {r : Result} (hwaiting : st.waiting = item :: rest)
    (hvisit : visit setup { st with waiting := rest } item = (st', none))
    (h : Ends setup st' vs r) : Ends setup st (⟨{ st with waiting := rest }, item⟩ :: vs) r := by
  cases h with
  | finished h hdone => exact .finished (.go hwaiting hvisit h) hdone
  | aborted h hnext hcause => exact .aborted (.go hwaiting hvisit h) hnext hcause
  | exhausted h => exact .exhausted (.go hwaiting hvisit h)

/-- The induction is on the budget. -/
theorem run_ends (setup : Setup) (budget : Nat) (st : State) :
    Ends setup st (visits setup budget st) (run setup budget st) := by
  induction budget generalizing st with
  | zero => exact .exhausted (.rest st)
  | succ budget ih =>
      unfold visits run
      cases hwaiting : st.waiting with
      | nil => exact .finished (.rest st) hwaiting
      | cons item rest =>
          dsimp only
          cases hvisit : visit setup { st with waiting := rest } item with
          | mk st' outcome =>
              cases outcome with
              | some cause => exact .aborted (.rest st) hwaiting hvisit
              | none => exact .go hwaiting hvisit (ih st')

/-- A scan that finished has worked off everything. -/
theorem scanWithin_finished {setup : Setup} {budget : Nat} {files : FileSystem}
    {inputs : List Path} {r : Report}
    (h : (scanWithin budget setup files inputs).outcome = .finished r) :
    ∃ output files' last, openOutput setup.config files = (.ok output, files') ∧
      Works setup ((State.start files' output).enqueueAll none 0 inputs)
        (visitsWithin budget setup files inputs) last ∧
      last.waiting = [] ∧ last.report = r := by
  unfold scanWithin at h
  unfold visitsWithin
  cases hopen : openOutput setup.config files with
  | mk output files' =>
      rw [hopen] at h
      cases output with
      | error cause => cases h
      | ok output =>
          have hends := run_ends setup budget ((State.start files' output).enqueueAll none 0 inputs)
          dsimp only at h ⊢
          generalize run setup budget _ = result, visits setup budget _ = vs at h hends
          cases hends with
          | finished hworks hdone =>
              exact ⟨output, files', _, rfl, hworks, hdone, Outcome.finished.inj h⟩
          | aborted => cases h
          | exhausted => cases h

/-- An outcome with a report is that of a scan that finished. -/
theorem Outcome.finished_of_map {α : Type} {outcome : Outcome} {f : Report → α} {a : α}
    (h : outcome.report?.map f = some a) : ∃ r, outcome = .finished r ∧ f r = a := by
  cases outcome with
  | finished r => exact ⟨r, rfl, Option.some.inj h⟩
  | aborted cause => cases h
  | exhausted => cases h

/-- When the inputs wait, nothing has an entry yet. -/
theorem sound_start (maxDepth : Nat) (files : FileSystem) (output : Option OutputDir)
    (inputs : List Path) :
    ((State.start files output).enqueueAll none 0 inputs).Sound maxDepth := by
  have hplace : (State.start files output).report.Places none 0 := rfl
  exact (State.Sound.start maxDepth files output).enqueueAll hplace inputs

/-! ## Which paths wait -/

namespace State

variable (st : State) (parent : Option FileId) (depth : Nat)

theorem files_enqueueAll (paths : List Path) :
    (st.enqueueAll parent depth paths).files = st.files ∧
      (st.enqueueAll parent depth paths).output = st.output := by
  unfold enqueueAll
  induction paths with
  | nil => exact ⟨rfl, rfl⟩
  | cons p rest ih =>
      rw [List.foldr_cons, enqueue]
      split <;> exact ih

theorem enqueueAll_cons (p : Path) (rest : List Path) :
    st.enqueueAll parent depth (p :: rest) =
      (st.enqueueAll parent depth rest).enqueue ⟨p, parent, depth⟩ := rfl

theorem mem_seen_enqueue {item : Item} {c : List Path.Component} :
    c ∈ (st.enqueue item).seen ↔ item.path.components = c ∨ c ∈ st.seen := by
  unfold enqueue
  split
  · next hseen =>
    rw [List.contains_iff_mem] at hseen
    refine ⟨.inr, ?_⟩
    rintro (rfl | hc)
    · exact hseen
    · exact hc
  · rw [List.mem_cons, eq_comm]

theorem mem_seen_enqueueAll {paths : List Path} {c : List Path.Component} :
    c ∈ (st.enqueueAll parent depth paths).seen ↔
      (∃ p ∈ paths, p.components = c) ∨ c ∈ st.seen := by
  induction paths with
  | nil => simp [enqueueAll]
  | cons p rest ih =>
      rw [enqueueAll_cons, mem_seen_enqueue, ih]
      simp only [List.mem_cons, exists_eq_or_imp, or_assoc]

/-- Of the paths of one origin some wait from then on, in their order. -/
theorem exists_waiting_enqueueAll (paths : List Path) :
    ∃ ps : List Path, ps.Sublist paths ∧ (st.enqueueAll parent depth paths).waiting =
      ps.map (fun p => ⟨p, parent, depth⟩) ++ st.waiting := by
  induction paths with
  | nil => exact ⟨[], .slnil, rfl⟩
  | cons p rest ih =>
      obtain ⟨ps, hps, hwaiting⟩ := ih
      rw [enqueueAll_cons, enqueue]
      split
      · exact ⟨ps, hps.cons p, hwaiting⟩
      · exact ⟨p :: ps, hps.cons_cons p, by simp [hwaiting]⟩

/-- If no two of the paths are the same, those that were not seen before wait from then on. -/
theorem waiting_enqueueAll {paths : List Path} (h : (paths.map Path.components).Nodup) :
    (st.enqueueAll parent depth paths).waiting =
      (paths.filter fun p => !st.seen.contains p.components).map (fun p => ⟨p, parent, depth⟩) ++
        st.waiting := by
  induction paths with
  | nil => rfl
  | cons p rest ih =>
      rw [List.map_cons, List.nodup_cons, List.mem_map, not_exists] at h
      have hiff : (st.enqueueAll parent depth rest).seen.contains p.components =
          st.seen.contains p.components := by
        rw [Bool.eq_iff_iff, List.contains_iff_mem, List.contains_iff_mem, mem_seen_enqueueAll,
          or_iff_right]
        rintro ⟨q, hq⟩
        exact h.1 q hq
      rw [enqueueAll_cons, enqueue]
      dsimp only
      rw [hiff, List.filter_cons]
      cases st.seen.contains p.components with
      | true => simpa using ih h.2
      | false => simpa using ih h.2

end State

/-! ## Evaluating a file -/

/-- An invariant of evaluation relates the sessions before and after all rules of a set. -/
theorem related_evaluateRoots {env : Environment} {R : Session → Session → Prop}
    (hR : Environment.Invariant env R) (is : List RuleId) (s : Session) :
    R s (evaluateRoots env is s).2 := by
  induction is generalizing s with
  | nil => exact hR.refl s
  | cons i rest ih =>
      have hrule := hR.evaluateRule Environment.depthLimit i s
      unfold Scan.evaluateRoots
      unfold Step.after at hrule
      cases hr : env.evaluateRule Environment.depthLimit i s with
      | ok m t =>
          rw [hr] at hrule
          cases m with
          | none => exact hR.trans hrule (ih t)
          | some m => exact hR.trans hrule (ih t)
      | error cause t =>
          rw [hr] at hrule
          exact hR.trans (hR.trans hrule (hR.recorded t _)) (ih _)

theorem recorded_closeSession {setup : Setup} (hops : setup.env.operators = .builtins)
    (s : Session) : s.Recorded (closeSession setup s) := by
  have hinv : Environment.Invariant setup.env Session.Recorded := by
    have h := Environment.recorded_invariant setup.env.rules
    rwa [← hops] at h
  exact related_evaluateRoots hinv _ s

/-- In a tree, the files that an evaluation created are in place, and nothing else changed. -/
theorem gained_of_evaluation {setup : Setup} (hops : setup.env.operators = .builtins) {v : Visit}
    {s t : Session} (h : v.evaluation? setup = some (s, t)) (htree : v.before.files.IsTree) :
    ∃ W, Deposits s W t ∧ s.Gained W t ∧ s.Stocked ∧ W.map Prod.fst = t.effects.created := by
  obtain ⟨hfiles, -, hcreated, ht⟩ := evaluation?_eq_some h
  obtain ⟨W, hdeposits⟩ := (recorded_closeSession hops s).deposits
  rw [← ht] at hdeposits
  have hstocked : s.Stocked := ⟨hfiles ▸ htree, by rw [hcreated]; exact nofun⟩
  have hgained := hdeposits.gained hstocked
  exact ⟨W, hdeposits, hgained, hstocked, by rw [hgained.created, hcreated, List.nil_append]⟩

/-- An evaluation makes the output directory hand out paths.  What was created has one of them, a
name in the directory that was free before. -/
theorem handsOut_of_evaluation {setup : Setup} (hops : setup.env.operators = .builtins) {v : Visit}
    {s t : Session} (h : v.evaluation? setup = some (s, t)) (htree : v.before.files.IsTree)
    {out : OutputDir} (hout : s.output = some out) :
    ∃ more, t.output = some { out with taken := more ++ out.taken } ∧
      ∀ p ∈ t.effects.created, p ∈ more ∧ out.isFree s.files p = true ∧
        ∃ name, Path.IsName name ∧ p = out.root.join name := by
  obtain ⟨hfiles, -, hcreated, ht⟩ := evaluation?_eq_some h
  obtain ⟨C, hcalls, hrecorded⟩ := recorded_closeSession hops s
  rw [← ht] at hcalls
  have hattempts := hcalls.attempts hrecorded
  have hstocked : s.Stocked := ⟨hfiles ▸ htree, by rw [hcreated]; exact nofun⟩
  have hhands := hattempts.handsOut hstocked hout
  refine ⟨_, hhands.output, fun p hp => ?_⟩
  rw [(hattempts.gained hstocked).created, hcreated, List.nil_append] at hp
  obtain ⟨a, ha, -, rfl⟩ := exists_attempt_of_mem hp
  exact ⟨List.mem_reverse.2 (List.mem_map_of_mem ha), hhands.free a ha, hhands.named a ha⟩

/-- Without an output directory nothing is created. -/
theorem output_of_created {setup : Setup} (hops : setup.env.operators = .builtins) {v : Visit}
    {s t : Session} (h : v.evaluation? setup = some (s, t)) (htree : v.before.files.IsTree)
    {p : Path} (hp : p ∈ t.effects.created) : ∃ out, s.output = some out := by
  obtain ⟨W, -, hgained, -, hcreated⟩ := gained_of_evaluation hops h htree
  obtain ⟨d, hd, rfl⟩ := List.mem_map.1 (hcreated.symm ▸ hp)
  obtain ⟨root, -, hroot, -⟩ := hgained.inside d hd
  obtain ⟨out, hout, -⟩ := Option.map_eq_some_iff.1 hroot
  exact ⟨out, hout⟩

end RuleScan.Scan
