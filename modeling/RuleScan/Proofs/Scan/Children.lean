import RuleScan.Proofs.Scan.Keeping

/-!
# The children of a file

With the built-in operators, what was created while a file was evaluated are files, and each of
them gets an entry when its turn comes.  So at any time the paths of a file's children, and
after them the paths that wait to become its children, are the paths that were created from it,
in the order in which they were created.  Left out are only the paths that had been on the list
before they were created.

## Main results

* `createdFrom` — what was created while a file was evaluated.
* `nodup_created` — no evaluation creates a path twice.
* `IsAccounted.visit` — the children and the paths that wait are what was created.
* `Works.children` — at the end of a scan all of them are children.
-/

namespace RuleScan.Scan

/-- The paths that were created, and not discarded, while the rules were evaluated against the
file whose entry has this id. -/
def createdFrom (setup : Setup) (vs : List Visit) (id : FileId) : List Path :=
  vs.flatMap fun v => if v.before.nextId = id then v.created setup else []

/-- The paths that were created and had not been on the list before. -/
def Visit.queued (setup : Setup) (v : Visit) : List Path :=
  (v.created setup).filter fun p => !v.before.seen.contains p.components

/-- The paths that were created from a file and had not been on the list before. -/
def queuedFrom (setup : Setup) (vs : List Visit) (id : FileId) : List Path :=
  vs.flatMap fun v => if v.before.nextId = id then v.queued setup else []

theorem queuedFrom_sublist (setup : Setup) (vs : List Visit) (id : FileId) :
    (queuedFrom setup vs id).Sublist (createdFrom setup vs id) := by
  induction vs with
  | nil => exact .slnil
  | cons v rest ih =>
      refine List.Sublist.append ?_ ih
      dsimp only
      split
      · exact List.filter_sublist
      · exact .slnil

theorem queuedFrom_concat (setup : Setup) (past : List Visit) (v : Visit) (id : FileId) :
    queuedFrom setup (past ++ [v]) id =
      queuedFrom setup past id ++ if v.before.nextId = id then v.queued setup else [] := by
  simp [queuedFrom]

/-- Files that were created in one evaluation lie apart, so their paths differ. -/
theorem nodup_created {setup : Setup} (hops : setup.env.operators = .builtins) {v : Visit}
    (htree : v.before.files.IsTree) : ((v.created setup).map Path.components).Nodup := by
  unfold Visit.created
  cases hev : v.evaluation? setup with
  | none => exact .nil
  | some sessions =>
      obtain ⟨s, t⟩ := sessions
      obtain ⟨W, -, hgained, -, hcreated⟩ := gained_of_evaluation hops hev htree
      dsimp only
      rw [← hcreated, List.map_map, List.nodup_iff_pairwise_ne, List.pairwise_map]
      refine hgained.apart.imp_of_mem fun {d d'} hd hd' hapart hsame => ?_
      obtain ⟨root, name, -, hname, hpath⟩ := hgained.inside d hd
      obtain ⟨root', name', -, hname', hpath'⟩ := hgained.inside d' hd'
      obtain ⟨l, -, hheld⟩ := hgained.held d hd
      have hplain : d.1.IsPlain := hpath ▸ Path.isPlain_join root hname
      have hplain' : d'.1.IsPlain := hpath' ▸ Path.isPlain_join root' hname'
      exact hapart l hheld.reaches (hheld.reaches.respell hplain hplain' hsame)

theorem Report.children_concat (r : Report) (e : Entry) (id : FileId) :
    ({ r with entries := r.entries ++ [e] } : Report).children id =
      r.children id ++ if e.parent = some id then [e] else [] := by
  simp [Report.children, List.filter_append, List.filter_cons]

/-- The paths that wait to become children of a file. -/
def State.childrenWaiting (st : State) (id : FileId) : List Path :=
  (st.waiting.filter fun item => item.parent == some id).map Item.path

/-- The paths of one origin wait to become children of that file. -/
theorem filter_ofOrigin (ps : List Path) (parent : Option FileId) (depth : Nat) (id : FileId) :
    ((ps.map fun p => (⟨p, parent, depth⟩ : Item)).filter fun i => i.parent == some id).map
      Item.path = if parent = some id then ps else [] := by
  by_cases h : parent = some id
  · simp [h, List.filter_map, Function.comp_def]
  · simp [h, List.filter_map, Function.comp_def]

/-- The children of each file and the paths that wait to become its children are what was created
from it. -/
def IsAccounted (setup : Setup) (past : List Visit) (st : State) : Prop :=
  ∀ id, (st.report.children id).map Entry.path ++ st.childrenWaiting id = queuedFrom setup past id

namespace IsAccounted

variable {setup : Setup} {origin : FileSystem} {past : List Visit} {st st' : State} {item : Item}
  {rest : List Item} {maxDepth : Nat}

/-- A file that has no entry yet has no children. -/
theorem queuedFrom_nextId (h : IsAccounted setup past st) (hs : st.Sound maxDepth) :
    queuedFrom setup past st.nextId = [] := by
  have hchildren : st.report.children st.nextId = [] := by
    refine List.filter_eq_nil_iff.2 fun e he hparent => ?_
    have hlt := (hs.placed e he).1.lt (by simpa using hparent)
    exact absurd hlt (Nat.lt_irrefl _)
  have hwaiting : st.childrenWaiting st.nextId = [] := by
    unfold State.childrenWaiting
    rw [List.map_eq_nil_iff]
    refine List.filter_eq_nil_iff.2 fun i hi hparent => ?_
    have hlt := (hs.waiting i hi).lt (by simpa using hparent)
    exact absurd hlt (Nat.lt_irrefl _)
  rw [← h st.nextId, hchildren, hwaiting]
  rfl

/-- A path with a parent leads to a file that was created, so it is neither warned about nor
replaced by what is in it. -/
theorem isInput_of_look (hk : Kept setup origin past st) (hw : st.waiting = item :: rest)
    (hlook : ∀ size, look setup st.files item.path ≠ .file size) :
    item.parent = none := by
  cases hparent : item.parent with
  | none => rfl
  | some p =>
      obtain ⟨-, content, l, -, hheld⟩ := hk.pending item (by simp [hw]) (by simp [hparent])
      exact absurd (look_of_holds hk.tree hheld) (hlook _)

/-- An input that gets no entry is nobody's child, nor is what is in it. -/
theorem pass (h : IsAccounted setup past st) (hw : st.waiting = item :: rest)
    (hinput : item.parent = none) (hreport : st'.report.entries = st.report.entries)
    {ps : List Path} (hw' : st'.waiting = ps.map (fun p => ⟨p, item.parent, item.depth⟩) ++ rest)
    {v : Visit} (hcreated : v.created setup = []) : IsAccounted setup (past ++ [v]) st' := by
  intro id
  have hbefore := h id
  unfold State.childrenWaiting at hbefore ⊢
  rw [hw, List.filter_cons, hinput] at hbefore
  have hchildren : st'.report.children id = st.report.children id := by
    rw [Report.children, hreport, Report.children]
  rw [hw', hinput, List.filter_append, List.map_append, filter_ofOrigin,
    if_neg (Option.some_ne_none id).symm, queuedFrom_concat, Visit.queued, hcreated, hchildren]
  simpa using hbefore

/-- A file is entered: it leaves the paths that wait to become children and becomes the last
child of its parent. -/
theorem enter (h : IsAccounted setup past st) (hs : st.Sound maxDepth)
    (hw : st.waiting = item :: rest) {files : FileSystem} {output : Option OutputDir}
    {events : List Event} {e : Entry} (he : e.IsFor { st with waiting := rest } item)
    (hnodup : ((Visit.created setup ⟨{ st with waiting := rest }, item⟩).map
      Path.components).Nodup) :
    IsAccounted setup (past ++ [⟨{ st with waiting := rest }, item⟩])
      ((({ st with waiting := rest, files, output, events } : State).commit e).enqueueAll
        (some e.id) (e.depth + 1) (Visit.created setup ⟨{ st with waiting := rest }, item⟩)) := by
  let v : Visit := ⟨{ st with waiting := rest }, item⟩
  let entered := ({ st with waiting := rest, files, output, events } : State).commit e
  have hreport := State.report_enqueueAll entered (some e.id) (e.depth + 1) (v.created setup)
  have hwaiting := State.waiting_enqueueAll entered (some e.id) (e.depth + 1) hnodup
  have hentries : entered.report = { st.report with entries := st.report.entries ++ [e] } := rfl
  have hqueued : ((v.created setup).filter fun p => !entered.seen.contains p.components) =
      v.queued setup := rfl
  have hid : e.id = st.nextId := he.id
  have hnone := h.queuedFrom_nextId hs
  intro id
  have hbefore := h id
  unfold State.childrenWaiting at hbefore ⊢
  show ((entered.enqueueAll (some e.id) (e.depth + 1) (v.created setup)).report.children id).map
      Entry.path ++ ((entered.enqueueAll (some e.id) (e.depth + 1) (v.created setup)).waiting.filter
        fun i => i.parent == some id).map Item.path = queuedFrom setup (past ++ [v]) id
  rw [hreport, hentries, Report.children_concat, hwaiting, hqueued, List.filter_append,
    List.map_append, List.map_append, filter_ofOrigin, queuedFrom_concat, he.parent, hid,
    show entered.waiting = rest from rfl, show v.before.nextId = st.nextId from rfl]
  rw [hw, List.filter_cons] at hbefore
  by_cases hself : st.nextId = id
  · -- the new file itself: nothing of it had an entry or waited
    subst hself
    rw [hnone, List.append_eq_nil_iff] at hbefore
    obtain ⟨hchildren, hrest⟩ := hbefore
    have hparent : item.parent ≠ some st.nextId := by
      intro hparent
      simp [hparent] at hrest
    have hrest' : (rest.filter fun i => i.parent == some st.nextId) = [] := by
      simpa [hparent] using hrest
    rw [hrest', hnone, if_neg hparent, hchildren]
    simp
  · -- another file: one path moves from those that wait to its children, or nothing changes
    have hother : some st.nextId ≠ some id := fun h => hself (Option.some.inj h)
    rw [if_neg hother, if_neg hself, List.append_nil, ← hbefore]
    by_cases hparent : item.parent = some id
    · simp [hparent, he.path]
    · simp [hparent]

theorem visit (h : IsAccounted setup past st) (hops : setup.env.operators = .builtins)
    (hk : Kept setup origin past st) (hs : st.Sound maxDepth) (hw : st.waiting = item :: rest)
    (hvisit : Scan.visit setup { st with waiting := rest } item = (st', none)) :
    IsAccounted setup (past ++ [⟨{ st with waiting := rest }, item⟩]) st' := by
  have hproceeds := proceeds hvisit
  have hnodup := nodup_created (v := ⟨{ st with waiting := rest }, item⟩) hops hk.tree
  cases hproceeds with
  | entered files output events e he => exact h.enter hs hw he hnodup
  | warned message hlook hnone =>
      have hinput : item.parent = none := by
        refine isInput_of_look hk hw fun size hfile => ?_
        rcases hlook with hlook | hlook
        · exact absurd (hlook.symm.trans hfile) nofun
        · exact absurd (hlook.symm.trans hfile) nofun
      have hreport : (State.warn { st with waiting := rest } message).report.entries =
          st.report.entries := rfl
      have hw' : (State.warn { st with waiting := rest } message).waiting =
          ([] : List Path).map (fun p => ⟨p, item.parent, item.depth⟩) ++ rest := rfl
      exact h.pass hw hinput hreport hw' hnone
  | expanded names faults hlook hnone =>
      have hinput : item.parent = none :=
        isInput_of_look hk hw fun size hfile => absurd (hlook.symm.trans hfile) nofun
      obtain ⟨ps, -, hwaiting⟩ := State.exists_waiting_enqueueAll
        (({ st with waiting := rest } : State).warnAll faults) item.parent item.depth
        (names.map item.path.join)
      refine h.pass hw hinput ?_ hwaiting hnone
      rw [State.report_enqueueAll]
      rfl

theorem start (setup : Setup) (files : FileSystem) (output : Option OutputDir)
    (inputs : List Path) :
    IsAccounted setup [] ((State.start files output).enqueueAll none 0 inputs) := by
  intro id
  obtain ⟨ps, -, hwaiting⟩ :=
    State.exists_waiting_enqueueAll (State.start files output) none 0 inputs
  have hnone : (State.start files output).waiting = [] := rfl
  rw [State.childrenWaiting, hwaiting, hnone, List.append_nil, filter_ofOrigin,
    if_neg (Option.some_ne_none id).symm, State.report_enqueueAll]
  rfl

end IsAccounted

/-- When nothing waits any more, the children of each file are what was created from it. -/
theorem Works.children {setup : Setup} {origin : FileSystem} {st last : State} {vs : List Visit}
    (h : Works setup st vs last) (hops : setup.env.operators = .builtins)
    (hk : Kept setup origin [] st) (hs : st.Sound setup.config.maxDepth)
    (ha : IsAccounted setup [] st) (hdone : last.waiting = []) (id : FileId) :
    (last.report.children id).map Entry.path = queuedFrom setup vs id := by
  have hall : Kept setup origin vs last ∧ last.Sound setup.config.maxDepth ∧
      IsAccounted setup vs last := by
    refine h.preserves (fun past st => Kept setup origin past st ∧
      st.Sound setup.config.maxDepth ∧ IsAccounted setup past st) ?_ ⟨hk, hs, ha⟩
    rintro past st st' item rest ⟨hk, hs, ha⟩ hw hvisit
    obtain ⟨hpop, hready⟩ := hs.pop hw
    have hsound := hpop.visit setup hready
    rw [hvisit] at hsound
    exact ⟨hk.visit hops hw hvisit, hsound, ha.visit hops hk hs hw hvisit⟩
  rw [← hall.2.2 id, State.childrenWaiting, hdone]
  simp

end RuleScan.Scan
