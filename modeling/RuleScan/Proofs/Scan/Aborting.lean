import RuleScan.Proofs.Evaluation.Recording
import RuleScan.Proofs.Scan.Visits

/-!
# Ending a scan early

A configuration may ask for a scan to end with the first internal failure.  That choice has a
say in one place only, when the rules have been evaluated against a file and before its entry is
made.  So as long as no evaluation fails internally, the two scans do the same step by step
(`Compares.alike`), and the first evaluation that does ends the one scan with an error whose text
the other scan puts into its report (`Compares.apart`).  From then on that diagnostic stays the
first internal one: no other kind of entry has any, and entries are only ever appended.

## Main results

* `compares_visit` — what the two scans make of one path.
* `run_compares` — and of all paths that wait.
* `diagnosed_of_fails` — an internal failure of an action that is run is in the report.
* `scanWithin_onlyCutsShort` — the two scans compared.
-/

namespace RuleScan.Scan

/-- The same scan, ended by the first internal failure or not. -/
def Setup.withAbort (setup : Setup) (abort : Bool) : Setup :=
  { setup with config := { setup.config with abortOnInternal := abort } }

/-- The internal diagnostics of an entry. -/
def Entry.internals (e : Entry) : List Diagnostic := e.errors.filter Diagnostic.internal

/-- The internal diagnostics in the order of the files, and of each file in their order. -/
def Report.internals (r : Report) : List Diagnostic := r.entries.flatMap Entry.internals

/-! ## Entries and their internal diagnostics -/

section Entries

variable {st : State} {e : Entry}

theorem internals_fail {cause : Error} (h : cause.isInternal = false) (rule : Option String) :
    (e.fail rule cause).internals = e.internals := by
  simp [Entry.internals, Entry.fail, Diagnostic.ofError, h]

theorem internals_commit (st : State) (e : Entry) :
    (st.commit e).report.internals = st.report.internals ++ e.internals := by
  simp [Report.internals, State.commit]

theorem internals_enqueueAll (st : State) (parent : Option FileId) (depth : Nat)
    (paths : List Path) :
    (st.enqueueAll parent depth paths).report.internals = st.report.internals := by
  rw [State.report_enqueueAll]

/-- The internal diagnostics of a file that was evaluated are those of its internal failures. -/
theorem internals_concluded (rules : RuleSet) (ms : List Match) (effects : Effects)
    (he : e.errors = []) :
    (concluded rules e ms effects).internals =
      (effects.failures.filter fun f => f.error.isInternal).map fun f =>
        Diagnostic.ofError f.rule f.error := by
  simp [Entry.internals, concluded, he, List.filter_map, Function.comp_def, Diagnostic.ofError]

/-- A duplicate that cannot be replaced is no internal failure: only what lies inside the output
directory is replaced. -/
theorem internals_commitDuplicate (references : References) (st : State) (earlier : Entry)
    (he : e.internals = []) :
    (commitDuplicate references st e earlier).report.internals = st.report.internals := by
  have hplain : ∀ (files : FileSystem) (f : Entry), f.internals = [] →
      ({ st with files } : State).report.internals ++ f.internals = st.report.internals := by
    intro files f hf
    rw [hf, List.append_nil]
  unfold commitDuplicate
  dsimp only
  split
  · rw [internals_commit]
    exact hplain st.files _ he
  · next out _ =>
    split
    · next hinside =>
      have hin : out.contains e.path = true := (Bool.and_eq_true _ _ ▸ hinside).2
      split
      · rw [internals_commit]
        exact hplain _ _ he
      · next cause files hreplace =>
        have hcause : cause.isInternal = false := by
          rw [OutputDir.replaceWithReference, hin] at hreplace
          simp only [Bool.not_true, Bool.false_eq_true, if_false] at hreplace
          split at hreplace
          · cases hreplace
            rfl
          · split at hreplace
            · cases hreplace
              rfl
            · cases hreplace
        rw [internals_commit, internals_fail hcause]
        exact hplain _ _ he
    · rw [internals_commit]
      exact hplain st.files _ he

end Entries

/-! ## One path -/

/--
How the scan that ends with the first internal failure and the one that goes on get past a path,
given the internal diagnostics so far: in the same way, without a new one, or the one scan ends
with the first of those that the other one enters.
-/
inductive Compares (past : List Diagnostic) :
    State × Option Error → State × Option Error → Prop
  | alike {st : State} (h : st.report.internals = past) : Compares past (st, none) (st, none)
  | apart {last st : State} {cause : Error} {d : Diagnostic} {ds : List Diagnostic}
      (hmessage : cause.message = d.message) (h : st.report.internals = past ++ d :: ds) :
      Compares past (last, some cause) (st, none)

section Visiting

variable (setup : Setup) (st : State)

/-- An entry without internal diagnostics. -/
theorem Compares.commit {st : State} {e : Entry} (h : e.internals = []) :
    Compares st.report.internals (st.commit e, none) (st.commit e, none) :=
  .alike (by rw [internals_commit, h, List.append_nil])

/-- The one place where the choice has a say. -/
theorem compares_conclude {e : Entry} (he : e.errors = []) (ms : List Match) (session : Session) :
    Compares st.report.internals (conclude (setup.withAbort true) st e ms session)
      (conclude (setup.withAbort false) st e ms session) := by
  have hinternals := internals_concluded setup.env.rules ms session.effects he
  have hoff : fatal? (setup.withAbort false).config session.effects = none := rfl
  have hon : fatal? (setup.withAbort true).config session.effects =
      ((session.effects.failures.filter fun f => f.error.isInternal).head?).map Failure.error := by
    rw [List.head?_filter]
    rfl
  unfold conclude
  dsimp only
  rw [hoff, hon]
  cases hfailures : session.effects.failures.filter fun f => f.error.isInternal with
  | nil =>
      rw [hfailures] at hinternals
      refine .alike ?_
      rw [internals_enqueueAll, internals_commit]
      exact (congrArg (_ ++ ·) hinternals).trans (List.append_nil _)
  | cons f fs =>
      rw [hfailures] at hinternals
      have hentry : (concluded setup.env.rules e ms session.effects).internals =
          Diagnostic.ofError f.rule f.error :: fs.map fun f => Diagnostic.ofError f.rule f.error :=
        hinternals
      exact .apart (d := Diagnostic.ofError f.rule f.error) rfl <|
        (internals_enqueueAll _ _ _ _).trans <|
          (internals_commit _ _).trans (congrArg (_ ++ ·) hentry)

theorem compares_visitFile {e : Entry} (he : e.errors = []) :
    Compares st.report.internals (visitFile (setup.withAbort true) st e)
      (visitFile (setup.withAbort false) st e) := by
  have hnone : e.internals = [] := by rw [Entry.internals, he, List.filter_nil]
  have hdepth : ∀ abort, (setup.withAbort abort).config.maxDepth = setup.config.maxDepth :=
    fun _ => rfl
  have hold : ∀ abort content,
      st.entryWith? (setup.withAbort abort) content = st.entryWith? setup content := fun _ _ => rfl
  unfold visitFile
  simp only [hdepth, hold]
  split
  · exact .commit ((internals_fail rfl none).trans hnone)
  split
  · exact .commit ((internals_fail rfl none).trans hnone)
  · next content _ =>
    split
    · exact .alike (internals_commitDuplicate _ st _ hnone)
    · exact compares_conclude setup (st.emit _) (e := { e with content := some content }) he _ _

/-- What the two scans make of a path. -/
theorem compares_visit (item : Item) :
    Compares st.report.internals (visit (setup.withAbort true) st item)
      (visit (setup.withAbort false) st item) := by
  have hlook : ∀ abort, look (setup.withAbort abort) st.files item.path =
      look setup st.files item.path := fun _ => rfl
  unfold visit
  simp only [hlook]
  split
  · exact .commit ((internals_fail rfl none).trans rfl)
  · exact .alike rfl
  · exact .alike (internals_enqueueAll _ _ _ _)
  · exact .alike rfl
  · exact compares_visitFile setup st rfl

end Visiting

/-! ## All paths -/

section Running

variable {setup : Setup} {st last : State} {vs : List Visit}

/-- Entries are only ever appended. -/
theorem Works.internals (h : Works setup st vs last) :
    st.report.internals <+: last.report.internals := by
  refine h.preserves (fun _ st' => st.report.internals <+: st'.report.internals) ?_
    List.prefix_rfl
  intro _ st' next item rest hprev _ hvisit
  refine hprev.trans ?_
  cases proceeds hvisit with
  | entered files output events e he =>
      rw [internals_enqueueAll, internals_commit]
      exact List.prefix_append _ _
  | warned message hlook hcreated => exact List.prefix_rfl
  | expanded names faults hlook hcreated =>
      have hsame := internals_enqueueAll (({ st' with waiting := rest } : State).warnAll faults)
        item.parent item.depth (names.map item.path.join)
      exact ⟨[], (List.append_nil _).trans hsame.symm⟩

theorem internals_of_run {budget : Nat} {r : Report}
    (h : (run setup budget st).outcome = .finished r) : st.report.internals <+: r.internals := by
  have hends := run_ends setup budget st
  generalize visits setup budget st = vs, run setup budget st = result at h hends
  cases hends with
  | finished hworks _ =>
      obtain rfl := Outcome.finished.inj h
      exact hworks.internals
  | aborted => cases h
  | exhausted => cases h

/-- A scan that ignores the choice never ends with an error. -/
theorem run_ne_aborted (setup : Setup) (budget : Nat) (st : State) (cause : Error) :
    (run (setup.withAbort false) budget st).outcome ≠ .aborted cause := by
  intro h
  have hends := run_ends (setup.withAbort false) budget st
  generalize visits (setup.withAbort false) budget st = vs,
    run (setup.withAbort false) budget st = result at h hends
  cases hends with
  | finished => cases h
  | exhausted => cases h
  | @aborted vs last st' item rest cause' _ _ hvisit =>
      have hcompares := compares_visit setup { last with waiting := rest } item
      rw [hvisit] at hcompares
      generalize visit (setup.withAbort true) { last with waiting := rest } item = on at hcompares
      cases hcompares

/-- The outcomes of a scan that goes on, and of the one that ends with the first internal failure,
from a state without internal diagnostics.  The induction is on the budget. -/
theorem run_compares (setup : Setup) (budget : Nat) {st : State} (hst : st.report.internals = [])
    {r : Report} (h : (run (setup.withAbort false) budget st).outcome = .finished r) :
    (r.internals = [] →
      run (setup.withAbort true) budget st = run (setup.withAbort false) budget st) ∧
    ∀ d ds, r.internals = d :: ds → ∃ cause,
      (run (setup.withAbort true) budget st).outcome = .aborted cause ∧
        cause.message = d.message := by
  induction budget generalizing st with
  | zero => cases h
  | succ budget ih =>
  unfold run at h ⊢
  cases hwaiting : st.waiting with
  | nil =>
      rw [hwaiting] at h
      obtain rfl := Outcome.finished.inj h
      refine ⟨fun _ => rfl, fun d ds hd => ?_⟩
      rw [hst] at hd
      cases hd
  | cons item rest =>
      rw [hwaiting] at h
      have hcompares := compares_visit setup { st with waiting := rest } item
      dsimp only at h ⊢
      generalize visit (setup.withAbort true) { st with waiting := rest } item = on,
        visit (setup.withAbort false) { st with waiting := rest } item = off at h hcompares
      cases hcompares with
      | @alike next hinternals => exact ih (hinternals.trans hst) h
      | @apart last next cause d ds hmessage hinternals =>
          have hfirst : d :: ds <+: r.internals := by
            have hprefix := internals_of_run h
            rw [hinternals] at hprefix
            rwa [show ({ st with waiting := rest } : State).report.internals = [] from hst,
              List.nil_append] at hprefix
          obtain ⟨more, hmore⟩ := hfirst
          refine ⟨fun hnone => ?_, fun d' ds' hd' => ⟨cause, rfl, ?_⟩⟩
          · rw [hnone] at hmore
            cases hmore
          · rw [hd'] at hmore
            rw [hmessage, (List.cons.inj hmore).1]

end Running

/-! ## Failures of actions -/

section Failing

variable {setup : Setup} {env : Environment}

theorem evaluateRoots_append (env : Environment) (is js : List RuleId) (s : Session) :
    (evaluateRoots env (is ++ js) s).2 = (evaluateRoots env js (evaluateRoots env is s).2).2 := by
  induction is generalizing s with
  | nil => rfl
  | cons i rest ih =>
      rw [List.cons_append, evaluateRoots, evaluateRoots]
      split <;> exact ih _

/-- An internal failure while a root rule is evaluated is there when all rules were evaluated. -/
theorem noted_evaluateRoots (hR : Environment.Invariant env Session.Recalls) {i : RuleId}
    (behind : List RuleId) {s : Session} {a : RuleAction} {e : Error}
    (h : env.Fails Environment.depthLimit (s.room Environment.depthLimit) i s a e)
    (he : e.isInternal = true) :
    Environment.Noted e (evaluateRoots env (i :: behind) s).2 := by
  have hnoted : Environment.Noted e ((env.evaluateRule Environment.depthLimit i).after s) :=
    h.recorded hR he
  unfold Step.after at hnoted
  rw [evaluateRoots]
  cases hrule : env.evaluateRule Environment.depthLimit i s with
  | ok found t =>
      rw [hrule] at hnoted
      cases found with
      | none => exact hnoted.recalls (related_evaluateRoots hR behind t)
      | some m => exact hnoted.recalls (related_evaluateRoots hR behind t)
  | error cause t =>
      rw [hrule] at hnoted
      exact (hnoted.recalls (hR.recorded t _)).recalls (related_evaluateRoots hR behind _)

/-- While the rules are evaluated against the file of a visit, an action is run and fails. -/
def Visit.Fails (setup : Setup) (v : Visit) (a : RuleAction) (e : Error) : Prop :=
  ∃ s t before i behind, v.evaluation? setup = some (s, t) ∧
    setup.env.rules.schedule = before ++ i :: behind ∧
    setup.env.Fails Environment.depthLimit
      ((evaluateRoots setup.env before s).2.room Environment.depthLimit) i
      (evaluateRoots setup.env before s).2 a e

/-- Every internal failure of an evaluation has a diagnostic in the report. -/
def Visit.Diagnosed (setup : Setup) (v : Visit) (r : Report) : Prop :=
  ∀ s t, v.evaluation? setup = some (s, t) → ∀ f ∈ t.effects.failures,
    f.error.isInternal = true → ∃ d ∈ r.internals, d.message = f.error.message

theorem Works.diagnosed {st last : State} {vs : List Visit} (h : Works setup st vs last) :
    ∀ v ∈ vs, v.Diagnosed setup last.report := by
  refine h.preserves (fun past st => ∀ v ∈ past, v.Diagnosed setup st.report) ?_ nofun
  intro past st st' item rest hpast hwaiting hvisit v hv s t hst f hf he
  have hkept : ∀ d ∈ st.report.internals, d ∈ st'.report.internals :=
    fun d hd => (Works.go hwaiting hvisit (.rest st')).internals.subset hd
  rcases List.mem_append.1 hv with hv | hv
  · obtain ⟨d, hd, hmessage⟩ := hpast v hv s t hst f hf he
    exact ⟨d, hkept d hd, hmessage⟩
  · obtain rfl := List.mem_singleton.1 hv
    have hvisited := visited_of_visit hvisit
    rw [hst] at hvisited
    cases hvisited with
    | evaluated size content s t events e ms hlook hread hnew hs ht hentry =>
        refine ⟨Diagnostic.ofError f.rule f.error, ?_, rfl⟩
        rw [internals_enqueueAll, internals_commit, hentry, internals_concluded _ _ _ rfl]
        exact List.mem_append_right _
          (List.mem_map_of_mem (List.mem_filter.2 ⟨hf, by simpa using he⟩))

/-- Whatever its mode, an action that is run and fails internally is in the report. -/
theorem diagnosed_of_fails (hops : setup.env.operators.KeepsFailures) {v : Visit} {r : Report}
    (hv : v.Diagnosed setup r) {a : RuleAction} {e : Error} (h : v.Fails setup a e)
    (he : e.isInternal = true) : ∃ d ∈ r.internals, d.message = e.message := by
  obtain ⟨s, t, before, i, behind, hst, hschedule, hfails⟩ := h
  have ht : t = closeSession setup s := (evaluation?_eq_some hst).2.2.2
  obtain ⟨f, hf, rfl⟩ := noted_evaluateRoots (Environment.recalls_invariant hops) behind hfails he
  rw [← evaluateRoots_append, ← hschedule] at hf
  exact hv s t hst f (ht ▸ hf) he

end Failing

/-! ## The comparison -/

/-- What it means that the choice only cuts a scan short. -/
structure OnlyCutsShort (budget : Nat) (setup : Setup) (files : FileSystem) (inputs : List Path) :
    Prop where
  /-- A scan that goes on fails only if its output directory cannot be created. -/
  failed : ∀ cause,
    (scanWithin budget (setup.withAbort false) files inputs).outcome = .aborted cause →
      ∃ root fault, setup.config.output = some root ∧
        (files.ensureDirectory root).1 = .error fault ∧ cause = .directoryCreate root fault ∧
        scanWithin budget (setup.withAbort true) files inputs =
          scanWithin budget (setup.withAbort false) files inputs
  /-- Without internal diagnostics the two scans are equal. -/
  same : ∀ r, (scanWithin budget (setup.withAbort false) files inputs).outcome = .finished r →
    r.internals = [] →
      scanWithin budget (setup.withAbort true) files inputs =
        scanWithin budget (setup.withAbort false) files inputs
  /-- Otherwise the text of the error is that of the first of them. -/
  first : ∀ r d ds,
    (scanWithin budget (setup.withAbort false) files inputs).outcome = .finished r →
      r.internals = d :: ds → ∃ cause,
        (scanWithin budget (setup.withAbort true) files inputs).outcome = .aborted cause ∧
          cause.message = d.message
  /-- An internal failure of an action is among them, whatever the mode of the action. -/
  heeded : setup.env.operators.KeepsFailures → ∀ r,
    (scanWithin budget (setup.withAbort false) files inputs).outcome = .finished r →
      ∀ v ∈ visitsWithin budget (setup.withAbort false) files inputs, ∀ a e,
        v.Fails (setup.withAbort false) a e → e.isInternal = true →
          ∃ d ∈ r.internals, d.message = e.message

/-- An output directory that cannot be opened could not be created. -/
theorem openOutput_error {config : Config} {files left : FileSystem} {cause : Error}
    (h : openOutput config files = (.error cause, left)) :
    ∃ root fault, config.output = some root ∧ (files.ensureDirectory root).1 = .error fault ∧
      cause = .directoryCreate root fault := by
  unfold openOutput at h
  split at h
  · cases h
  · next root hroot =>
    unfold OutputDir.open? at h
    cases hensure : files.ensureDirectory root with
    | mk outcome created =>
        rw [hensure] at h
        cases outcome with
        | ok _ => cases h
        | error fault =>
            cases h
            exact ⟨root, fault, hroot, by rw [hensure], rfl⟩

/--
**Asking for an early end only cuts a scan short.**  Whatever the rules and their operators, the
configuration, the files and the inputs: compare the scan that ends with the first internal
failure to the one that goes on.  The one that goes on fails only if its output directory cannot
be created, and then so does the other.  If its report has no internal diagnostic, the other scan
is the same; if it has, the other scan ends with an error that has the text of the first one.
As long as the operators take no failure back, an action that is told to ignore failures hides no
internal one.
-/
theorem scanWithin_onlyCutsShort (budget : Nat) (setup : Setup) (files : FileSystem)
    (inputs : List Path) : OnlyCutsShort budget setup files inputs := by
  have hopen : ∀ abort, openOutput (setup.withAbort abort).config files =
      openOutput setup.config files := fun _ => rfl
  have hfinished : ∀ r, (scanWithin budget (setup.withAbort false) files inputs).outcome =
      .finished r → (r.internals = [] → scanWithin budget (setup.withAbort true) files inputs =
        scanWithin budget (setup.withAbort false) files inputs) ∧
      ∀ d ds, r.internals = d :: ds → ∃ cause,
        (scanWithin budget (setup.withAbort true) files inputs).outcome = .aborted cause ∧
          cause.message = d.message := by
    intro r hr
    unfold scanWithin at hr ⊢
    rw [hopen] at hr ⊢
    rw [hopen]
    split at hr
    · cases hr
    · next output opened _ =>
      exact run_compares setup budget
        ((internals_enqueueAll (State.start opened output) none 0 inputs).trans rfl) hr
  refine ⟨fun cause hcause => ?_, fun r hr => (hfinished r hr).1, fun r d ds hr => ?_, ?_⟩
  · unfold scanWithin at hcause ⊢
    rw [hopen] at hcause ⊢
    rw [hopen]
    split at hcause
    · next opened hfail =>
      cases hcause
      obtain ⟨root, fault, hroot, hfault, hcause⟩ := openOutput_error hfail
      exact ⟨root, fault, hroot, hfault, hcause, rfl⟩
    · exact absurd hcause (run_ne_aborted setup budget _ cause)
  · exact (hfinished r hr).2 d ds
  · intro hops r hr v hv a e hfails he
    obtain ⟨output, opened, last, -, hworks, -, rfl⟩ := scanWithin_finished hr
    have hops' : (setup.withAbort false).env.operators.KeepsFailures := hops
    exact diagnosed_of_fails hops' (hworks.diagnosed v hv) hfails he

/-- An action that reads a number of three bytes, which no number has, and ignores failures. -/
def carelessAction : RuleAction :=
  ⟨.extract .number (.literal (.number (.ofNat 0 .w64))) (.literal (.number (.ofNat 3 .w64))) ∅,
    .ignore⟩

/-- A scan with a rule that does nothing but run that action. -/
def carelessSetup : Setup where
  env := ⟨⟨#[{ Rule.new "c" "r" with actions := [carelessAction] }], ∅, [0], ∅⟩, .builtins⟩
  config := {}

/-- The failure is to be ignored; it is in the report of the one scan and ends the other. -/
theorem scanWithin_onlyCutsShort_careless :
    ∃ r cause, (scanWithin 4 (carelessSetup.withAbort false)
        ⟨Table.ofList [(["a"], .file [7])], []⟩ ["a"]).outcome = .finished r ∧
      r.internals = [⟨some "c", (Error.invalidWidth 3).message, true⟩] ∧
      (∃ v ∈ visitsWithin 4 (carelessSetup.withAbort false)
          ⟨Table.ofList [(["a"], .file [7])], []⟩ ["a"],
        v.Fails (carelessSetup.withAbort false) carelessAction (.invalidWidth 3)) ∧
      (∃ d ∈ r.internals, d.message = (Error.invalidWidth 3).message) ∧
      (scanWithin 4 (carelessSetup.withAbort true)
        ⟨Table.ofList [(["a"], .file [7])], []⟩ ["a"]).outcome = .aborted cause ∧
      cause.message = (Error.invalidWidth 3).message := by
  have hshape : ((scanWithin 4 (carelessSetup.withAbort false)
      ⟨Table.ofList [(["a"], .file [7])], []⟩ ["a"]).outcome.report?.map Report.internals) =
      some [⟨some "c", (Error.invalidWidth 3).message, true⟩] := by
    decide +kernel
  obtain ⟨r, hr, hinternals⟩ := Outcome.finished_of_map hshape
  have hcompared := scanWithin_onlyCutsShort 4 carelessSetup
    ⟨Table.ofList [(["a"], .file [7])], []⟩ ["a"]
  have hfails : ∃ v ∈ visitsWithin 4 (carelessSetup.withAbort false)
      ⟨Table.ofList [(["a"], .file [7])], []⟩ ["a"],
      v.Fails (carelessSetup.withAbort false) carelessAction (.invalidWidth 3) :=
    ⟨_, List.mem_cons_self, _, _, [], 0, [], rfl, rfl,
      .own ⟨rfl, by decide, _, rfl, rfl⟩ (.here rfl)⟩
  obtain ⟨v, hv, hfails⟩ := hfails
  obtain ⟨cause, hcause, hmessage⟩ := hcompared.first r _ _ hr hinternals
  exact ⟨r, cause, hr, hinternals, ⟨v, hv, hfails⟩,
    hcompared.heeded Registry.keepsFailures_builtins r hr v hv _ _ hfails rfl, hcause, hmessage⟩

end RuleScan.Scan
