import RuleScan.Proofs.Scan.Tracking

/-!
# A scan keeps data

A scan changes files in two ways: rules deposit new ones, and a new file whose content was known
is replaced by a reference to the earlier file.  Only the second could do damage.  It does none,
because at any time the files that wait to be visited and may still be replaced are apart from
all that matters: each was created by this scan, they lie at different locations, no entry that
a later file may refer to leads to one of them, and no link made before does.

The file is removed before the reference is created.  If the system then refuses the link, or has
none, the file is forfeited (`Visit.Forfeits`): its path does not yield its bytes any more, though
that of the earlier file does.

`Kept` is the invariant.  What a visit does to the files is `Passes`: directories and links stay,
and a file stays unless it was waiting and has become a link to a file with the same hash that was
not waiting, or was forfeited.  So what a path of a deposit yields stays the same (`Stays`), and so
does where the entries lead.

## Main results

* `look_file`, `look_of_holds`, `look_directory` — what a path stands for, said of locations.
* `Kept.advance` — how the invariant gets past a visit.
* `Kept.visit` — every way of dealing with a path keeps the invariant.
* `scanWithin_keeps` — a scan leaves what was there, and what was deposited can be read.
-/

namespace RuleScan.Scan

open FileSystem

/-! ## What a path stands for -/

section Looking

variable {setup : Setup} {fs : FileSystem} {p : Path}

theorem Finding.ofNode_file {system : System} {node : Node} {size : Nat}
    (h : Finding.ofNode system fs p node = .file size) : ∃ content, node = .file content := by
  cases node with
  | file content => exact ⟨content, rfl⟩
  | directory => cases h
  | link target => cases h
  | device => cases h

/-- What counts as a file is reached at its location, behind all links. -/
theorem look_file (htree : fs.IsTree) {size : Nat} (h : look setup fs p = .file size) :
    ∃ l content, fs.Reaches true p l ∧ fs.node? l = some (.file content) := by
  have hdirect : ∀ {node}, fs.nodeAt p = .ok node →
      Finding.ofNode setup.system fs p node = .file size →
      ∃ l content, fs.Reaches true p l ∧ fs.node? l = some (.file content) := by
    intro node hnode hfile
    obtain ⟨content, rfl⟩ := Finding.ofNode_file hfile
    obtain ⟨l, hreach, hl⟩ := (nodeAt_ok_iff htree).1 hnode
    exact ⟨l, content, hreach.follow_last hl, hl⟩
  unfold look at h
  split at h
  · cases h
  · split at h
    · split at h
      · cases h
      · next node htarget =>
        obtain ⟨content, rfl⟩ := Finding.ofNode_file h
        obtain ⟨l, hreach, hl⟩ := (targetAt_ok_iff htree).1 htarget
        exact ⟨l, content, hreach, hl⟩
    · cases h
  · next hnode => exact hdirect hnode h

/-- A file that is no link counts as a file, whether or not links are followed. -/
theorem look_of_holds (htree : fs.IsTree) {content : Bytes} {l : Location}
    (h : fs.Holds p content l) : look setup fs p = .file content.length := by
  rw [look, (nodeAt_ok_iff htree).2 ⟨l, h.reaches, h.node⟩]
  rfl

/-- What is found in a directory are names, and each stands for something. -/
theorem look_directory (htree : fs.IsTree) {names faults : List String}
    (h : look setup fs p = .directory names faults) {name : String} (hname : name ∈ names) :
    Path.IsName name ∧ fs.exists? (p.join name) = true := by
  have hthere := (look_directory_names h).1.subset hname
  unfold look at h
  split at h
  · cases h
  · split at h
    · split at h
      · cases h
      · next node htarget =>
        obtain ⟨rfl, -⟩ := Finding.ofNode_directory h
        obtain ⟨l, hreach, hl⟩ := (targetAt_ok_iff htree).1 htarget
        exact exists?_of_mem_namesIn htree hreach hl hthere
    · cases h
  · next hnode =>
    obtain ⟨rfl, -⟩ := Finding.ofNode_directory h
    obtain ⟨l, hreach, hl⟩ := (nodeAt_ok_iff htree).1 hnode
    exact exists?_of_mem_namesIn htree (hreach.follow_directory hl) hl hthere

end Looking

/-! ## Files that may still be replaced -/

/-- A path with a parent waits and leads to the location. -/
def State.Pends (st : State) (l : Location) : Prop :=
  ∃ item ∈ st.waiting, item.parent.isSome ∧ st.files.Reaches false item.path l

/-- The file of a visit was removed as a duplicate, and no link was put in its place: there are no
links, or this one was refused, which is recorded with the entry. -/
inductive Visit.Forfeits (setup : Setup) (v : Visit) : Prop
  | noted (hlinks : setup.system.references.links = false)
  | refused {now : FileSystem} {target : Path} {cause : FileFault}
      (hrefused : setup.system.references.refused now v.item.path target = some cause)
      (hentry : ∃ e ∈ (v.after setup).report.entries, e.id = v.before.nextId ∧
        Diagnostic.ofError none (.fileWrite v.item.path cause) ∈ e.errors)

/-- The file at a location was forfeited in a visit, though an earlier entry has its bytes. -/
structure Visit.Lost (setup : Setup) (v : Visit) (l : Location) (bytes : Bytes) (e : Entry) :
    Prop where
  forfeits : v.Forfeits setup
  reaches : v.before.files.Reaches false v.item.path l
  earlier : v.before.entryWith? setup bytes = some e

/-- A path yields the bytes, from a file or by way of a link to one that may not be replaced and has
the hash of the bytes, or else the file was lost. -/
def State.Stays (setup : Setup) (past : List Visit) (st : State) (p : Path) (bytes : Bytes) :
    Prop :=
  (∃ l, st.files.Holds p bytes l) ∨
    (∃ l origin c, st.files.Reaches false p l ∧ st.files.node? l = some (.link (pathOf origin)) ∧
      st.files.node? origin = some (.file c) ∧ setup.system.hash c = setup.system.hash bytes ∧
      ¬ st.Pends origin) ∨
    ∃ v ∈ past, ∃ l e, st.files.Reaches false p l ∧ v.Lost setup l bytes e ∧
      st.entryWith? setup bytes = some e

/-- Of these paths, those with a parent lead to files that are new since an earlier state. -/
def State.Brings (st st' : State) (new : List Item) : Prop :=
  ∀ i ∈ new, i.parent.isSome → i.path.IsPlain ∧
    ∃ content l, st.files.node? l = none ∧ st'.files.Holds i.path content l

/-- The file at a location, which waited and was visited, is there no longer: it has become a link
to its like, or was lost. -/
structure State.Displaced (setup : Setup) (v : Visit) (st st' : State) (l : Location)
    (content : Bytes) : Prop where
  pends : st.Pends l
  done : ¬ st'.Pends l
  created : v.item.parent.isSome
  reaches : v.before.files.Reaches false v.item.path l
  becomes : (∃ origin c, st'.files.node? l = some (.link (pathOf origin)) ∧
      st.files.node? origin = some (.file c) ∧
      setup.system.hash c = setup.system.hash content ∧ ¬ st.Pends origin) ∨
    ∃ e, v.Lost setup l content e ∧ st.entryWith? setup content = some e

/-- What a visit may do to the files and to the entries that can be referred to. -/
structure State.Passes (setup : Setup) (v : Visit) (st st' : State) : Prop where
  current : st'.files.current = st.files.current
  node : ∀ {l node}, st.files.node? l = some node → st'.files.node? l = some node ∨
    ∃ content, node = .file content ∧ st.Displaced setup v st' l content
  pends : ∀ {l}, st'.Pends l → st.Pends l ∨ st.files.node? l = none
  recalls : ∀ {c e}, st.entryWith? setup c = some e → st'.entryWith? setup c = some e

section Passing

variable {setup : Setup} {past : List Visit} {v : Visit} {st st' : State} {p : Path}
  {content : Bytes} {l : Location}

/-- The entry that is referred to stays the same when entries are added. -/
theorem State.recalls_of_append {es : List Entry}
    (h : st'.report.entries = st.report.entries ++ es) {c : Bytes} {e : Entry}
    (he : st.entryWith? setup c = some e) : st'.entryWith? setup c = some e := by
  unfold State.entryWith? at he ⊢
  rw [h, List.find?_append, he, Option.some_or]

/-- If every node is what it was, only the list and the report matter. -/
theorem State.Passes.of_keeps (h : st.files.Keeps st'.files)
    (hpends : ∀ {l}, st'.Pends l → st.Pends l ∨ st.files.node? l = none) {es : List Entry}
    (hreport : st'.report.entries = st.report.entries ++ es) : st.Passes setup v st' where
  current := h.current
  node hl := .inl (h.node hl)
  pends := hpends
  recalls := recalls_of_append hreport

theorem State.Passes.guides (h : st.Passes setup v st') : st.files.Guides st'.files where
  current := h.current
  directory hl := (h.node hl).resolve_right nofun
  link hl := (h.node hl).resolve_right nofun

/-- What existed still exists, unless it was created by this scan and is what was visited. -/
theorem State.Passes.present (h : st.Passes setup v st') (hl : (st.files.node? l).isSome) :
    (st'.files.node? l).isSome ∨
      v.item.parent.isSome ∧ v.before.files.Reaches false v.item.path l := by
  obtain ⟨node, hnode⟩ := Option.isSome_iff_exists.1 hl
  rcases h.node hnode with hnode' | ⟨_, -, hdisplaced⟩
  · exact .inl (by simp [hnode'])
  · exact .inr ⟨hdisplaced.created, hdisplaced.reaches⟩

/-- A file that does not wait stays, and does not wait afterwards. -/
theorem State.Passes.file_of_not_pends (h : st.Passes setup v st')
    (hl : st.files.node? l = some (.file content)) (hnot : ¬ st.Pends l) :
    st'.files.node? l = some (.file content) ∧ ¬ st'.Pends l := by
  refine ⟨(h.node hl).resolve_right ?_, fun hpends => ?_⟩
  · rintro ⟨_, -, hdisplaced⟩
    exact hnot hdisplaced.pends
  · rcases h.pends hpends with hp | hnone
    · exact hnot hp
    · rw [hl] at hnone
      cases hnone

/-- What a path yields stays the same. -/
theorem State.Passes.stays (h : st.Passes setup v st') (hs : st.Stays setup past p content) :
    st'.Stays setup (past ++ [v]) p content := by
  rcases hs with ⟨l, hheld⟩ | ⟨l, origin, c, hreach, hlink, horigin, hhash, hnot⟩ |
    ⟨w, hw, l, e, hreach, hlost, he⟩
  · have hreach := hheld.reaches.guided_entry h.guides
    obtain hnode | ⟨_, hfile, hdisplaced⟩ := h.node hheld.node
    · exact .inl ⟨l, hreach, hnode⟩
    · cases hfile
      rcases hdisplaced.becomes with ⟨origin, c, hlink, horigin, hhash, hnot⟩ | ⟨e, hlost, he⟩
      · obtain ⟨horigin', hnot'⟩ := h.file_of_not_pends horigin hnot
        exact .inr (.inl ⟨l, origin, c, hreach, hlink, horigin', hhash, hnot'⟩)
      · exact .inr (.inr ⟨v, by simp, l, e, hreach, hlost, h.recalls he⟩)
  · obtain ⟨horigin', hnot'⟩ := h.file_of_not_pends horigin hnot
    exact .inr (.inl ⟨l, origin, c, hreach.guided_entry h.guides, h.guides.link hlink, horigin',
      hhash, hnot'⟩)
  · exact .inr (.inr ⟨w, List.mem_append_left _ hw, l, e, hreach.guided_entry h.guides, hlost,
      h.recalls he⟩)

end Passing

/-! ## The invariant -/

/-- Every file that was deposited in the evaluation of a visit has this property, together with the
bytes that were written into it. -/
def Visit.EachDeposit (setup : Setup) (v : Visit) (P : Path → Bytes → Prop) : Prop :=
  ∀ s t, v.evaluation? setup = some (s, t) →
    ∃ W, Deposits s W t ∧ W.map Prod.fst = t.effects.created ∧ ∀ d ∈ W, P d.1 d.2

theorem Visit.EachDeposit.imp {setup : Setup} {v : Visit} {P Q : Path → Bytes → Prop}
    (h : v.EachDeposit setup P) (himp : ∀ p bytes, P p bytes → Q p bytes) :
    v.EachDeposit setup Q := by
  intro s t hst
  obtain ⟨W, hdeposits, hcreated, hall⟩ := h s t hst
  exact ⟨W, hdeposits, hcreated, fun d hd => himp d.1 d.2 (hall d hd)⟩

theorem Visit.eachDeposit_of_none {setup : Setup} {v : Visit} (h : v.evaluation? setup = none)
    (P : Path → Bytes → Prop) : v.EachDeposit setup P := by
  intro s t hst
  rw [h] at hst
  cases hst

/-- What was deposited by the evaluation of this visit is as it was written. -/
theorem Visit.stays_of_gained {setup : Setup} {past : List Visit} {st : State} {v : Visit}
    {s t : Session} {W : List (Path × Bytes)} (hst : v.evaluation? setup = some (s, t))
    (hdeposits : Deposits s W t) (hgained : s.Gained W t)
    (hcreated : W.map Prod.fst = t.effects.created) (ht : st.files = t.files) :
    v.EachDeposit setup (st.Stays setup past) := by
  intro s' t' hst'
  rw [hst, Option.some.injEq, Prod.mk.injEq] at hst'
  obtain ⟨rfl, rfl⟩ := hst'
  refine ⟨W, hdeposits, hcreated, fun d hd => .inl ?_⟩
  obtain ⟨l, -, hheld⟩ := hgained.held d hd
  exact ⟨l, ht ▸ hheld⟩

/-- An entry leads to a file that does not wait and has the hash of these bytes. -/
def State.Backs (setup : Setup) (st : State) (e : Entry) (bytes : Bytes) : Prop :=
  ∃ l content, st.files.Reaches true e.path l ∧ st.files.node? l = some (.file content) ∧
    setup.system.hash content = setup.system.hash bytes ∧ ¬ st.Pends l

/-- The invariant of the files of a scan that began with `origin`. -/
structure Kept (setup : Setup) (origin : FileSystem) (past : List Visit) (st : State) : Prop where
  tree : st.files.IsTree
  keeps : origin.Keeps st.files
  /-- What was created is in front of what was not. -/
  order : st.waiting.Pairwise fun a b => b.parent.isSome → a.parent.isSome
  /-- What was created is still there while it waits. -/
  pending : ∀ item ∈ st.waiting, item.parent.isSome →
    item.path.IsPlain ∧ ∃ content l, origin.node? l = none ∧ st.files.Holds item.path content l
  /-- Nothing that was created waits twice. -/
  apart : st.waiting.Pairwise fun a b => a.parent.isSome → b.parent.isSome →
    ∀ l, st.files.Reaches false a.path l → ¬ st.files.Reaches false b.path l
  /-- An entry that later files may refer to leads to a file that does not wait. -/
  entries : ∀ c e, st.entryWith? setup c = some e → st.Backs setup e c
  stays : ∀ v ∈ past, v.EachDeposit setup (st.Stays setup past)
  /-- Paths lead where they led when a path was visited. -/
  guides : ∀ v ∈ past, v.before.files.Guides st.files
  /-- What existed when a path was visited still exists, or was created by this scan and has been
  visited. -/
  present : ∀ v ∈ past, ∀ l, (v.before.files.node? l).isSome → (st.files.node? l).isSome ∨
    ∃ w ∈ past, w.item.parent.isSome ∧ w.before.files.Reaches false w.item.path l

namespace Kept

variable {setup : Setup} {origin : FileSystem} {past : List Visit} {st st' : State} {item : Item}
  {rest : List Item}

/-- What waits behind an input is an input. -/
theorem inputs_behind (h : Kept setup origin past st) (hw : st.waiting = item :: rest)
    (hitem : item.parent.isSome = false) {other : Item} (hother : other ∈ rest) :
    other.parent.isSome = false := by
  have horder := h.order
  rw [hw, List.pairwise_cons] at horder
  cases hsome : other.parent.isSome with
  | false => rfl
  | true =>
      have hcreated := horder.1 other hother hsome
      rw [hitem] at hcreated
      cases hcreated

/-- A file that is visited does not wait behind itself. -/
theorem not_pends_behind (h : Kept setup origin past st) (hw : st.waiting = item :: rest)
    {l : Location} (hreach : st.files.Reaches true item.path l) {other : Item}
    (hother : other ∈ rest) (hparent : other.parent.isSome) :
    ¬ st.files.Reaches false other.path l := by
  cases hitem : item.parent.isSome with
  | false =>
      have hinput := h.inputs_behind hw hitem hother
      rw [hparent] at hinput
      cases hinput
  | true =>
      have hapart := h.apart
      rw [hw, List.pairwise_cons] at hapart
      obtain ⟨-, content, k, -, hheld⟩ := h.pending item (by simp [hw]) hitem
      have hlk : l = k := (hheld.reaches.follow_last hheld.node).unique hreach
      exact hapart.1 other hother hitem hparent l (hlk ▸ hheld.reaches)

/-- What waits behind the path that is visited waited before. -/
theorem pends_of_behind (hw : st.waiting = item :: rest)
    (hfiles : st.files.Guides st'.files) {l : Location} {other : Item} (hother : other ∈ rest)
    (hparent : other.parent.isSome) (h : Kept setup origin past st)
    (hreach : st'.files.Reaches false other.path l) :
    st.Pends l ∧ st.files.Reaches false other.path l := by
  have hmem : other ∈ st.waiting := by simp [hw, hother]
  obtain ⟨-, content, k, -, hheld⟩ := h.pending other hmem hparent
  have hlk : l = k := (hheld.reaches.guided_entry hfiles).unique hreach
  rw [hlk]
  exact ⟨⟨other, hmem, hparent, hheld.reaches⟩, hheld.reaches⟩

/-- What was created stays in front of what was not, if what is new is all of one kind. -/
theorem order_advance (h : Kept setup origin past st) (hw : st.waiting = item :: rest)
    {new : List Item}
    (hfront : (∀ i ∈ new, i.parent.isSome = true) ∨
      item.parent.isSome = false ∧ ∀ i ∈ new, i.parent.isSome = false) :
    (new ++ rest).Pairwise fun a b => b.parent.isSome → a.parent.isSome := by
  have horder := h.order
  rw [hw, List.pairwise_cons] at horder
  refine List.pairwise_append.2 ⟨?_, horder.2, fun a ha b hb hsome => ?_⟩
  · rcases hfront with hall | ⟨-, hnone⟩
    · exact List.pairwise_of_forall_mem_list fun a ha b _ _ => hall a ha
    · refine List.pairwise_of_forall_mem_list fun a _ b hb hsome => ?_
      rw [hnone b hb] at hsome
      cases hsome
  · rcases hfront with hall | ⟨hinput, -⟩
    · exact hall a ha
    · rw [h.inputs_behind hw hinput hb] at hsome
      cases hsome

/-- What waits and was created is there, if what is new has just been created. -/
theorem pending_advance (h : Kept setup origin past st) (hw : st.waiting = item :: rest) {v : Visit}
    (hpass : st.Passes setup v st') {new : List Item} (hw' : st'.waiting = new ++ rest)
    (hnew : st.Brings st' new) {i : Item} (hi : i ∈ st'.waiting) (hparent : i.parent.isSome) :
    i.path.IsPlain ∧ ∃ content l, origin.node? l = none ∧ st'.files.Holds i.path content l := by
  have hwaits := hi
  rw [hw'] at hi
  rcases List.mem_append.1 hi with hi | hi
  · obtain ⟨hplain, content, l, hnone, hheld⟩ := hnew i hi hparent
    refine ⟨hplain, content, l, ?_, hheld⟩
    cases hl : origin.node? l with
    | none => rfl
    | some node =>
        rw [h.keeps.node hl] at hnone
        cases hnone
  · obtain ⟨hplain, content, l, hnone, hheld⟩ := h.pending i (by simp [hw, hi]) hparent
    have hreach := hheld.reaches.guided_entry hpass.guides
    -- the path still waits, so its file was not replaced
    have hpends : st'.Pends l := ⟨i, hwaits, hparent, hreach⟩
    have hnode := (hpass.node hheld.node).resolve_right fun ⟨_, _, hr⟩ => hr.done hpends
    exact ⟨hplain, content, l, hnone, hreach, hnode⟩

/-- What waits and was created lies apart, if what is new does. -/
theorem apart_advance (h : Kept setup origin past st) (hw : st.waiting = item :: rest)
    (hguides : st.files.Guides st'.files) {new : List Item} (hnew : st.Brings st' new)
    (hapart : new.Pairwise fun a b => a.parent.isSome → b.parent.isSome →
      ∀ l, st'.files.Reaches false a.path l → ¬ st'.files.Reaches false b.path l) :
    (new ++ rest).Pairwise fun a b => a.parent.isSome → b.parent.isSome →
      ∀ l, st'.files.Reaches false a.path l → ¬ st'.files.Reaches false b.path l := by
  have hold := h.apart
  rw [hw, List.pairwise_cons] at hold
  refine List.pairwise_append.2 ⟨hapart, hold.2.imp_of_mem ?_, ?_⟩
  · intro a b ha hb hab hpa hpb l hra hrb
    exact hab hpa hpb l (pends_of_behind hw hguides ha hpa h hra).2
      (pends_of_behind hw hguides hb hpb h hrb).2
  · intro a ha b hb hpa hpb l hra hrb
    obtain ⟨-, content, k, hnone, hheld⟩ := hnew a ha hpa
    have hlk : l = k := hheld.reaches.unique hra
    have hrb' := (pends_of_behind hw hguides hb hpb h hrb).2
    obtain ⟨-, content', k', -, hheld'⟩ := h.pending b (by simp [hw, hb]) hpb
    rw [← hlk, hheld'.reaches.unique hrb', hheld'.node] at hnone
    cases hnone

/--
The invariant gets past a visit that puts new paths in front of the others: created files at
locations where there was nothing, or what an input holds.  An entry that can be referred to now
could be before, or leads to a file that does not wait.
-/
theorem advance (h : Kept setup origin past st) (hw : st.waiting = item :: rest) {v : Visit}
    (hpass : st.Passes setup v st') (htree : st'.files.IsTree) (hkeeps : origin.Keeps st'.files)
    {new : List Item} (hw' : st'.waiting = new ++ rest)
    (hfront : (∀ i ∈ new, i.parent.isSome = true) ∨
      item.parent.isSome = false ∧ ∀ i ∈ new, i.parent.isSome = false)
    (hnew : st.Brings st' new)
    (hapart : new.Pairwise fun a b => a.parent.isSome → b.parent.isSome →
      ∀ l, st'.files.Reaches false a.path l → ¬ st'.files.Reaches false b.path l)
    (hentries : ∀ c e, st'.entryWith? setup c = some e →
      st.entryWith? setup c = some e ∨ st'.Backs setup e c)
    (hbefore : v.before.files = st.files)
    (hv : v.EachDeposit setup (st'.Stays setup (past ++ [v]))) :
    Kept setup origin (past ++ [v]) st' where
  tree := htree
  keeps := hkeeps
  order := hw' ▸ h.order_advance hw hfront
  pending i hi hparent := h.pending_advance hw hpass hw' hnew hi hparent
  apart := hw' ▸ h.apart_advance hw hpass.guides hnew hapart
  entries c e he := by
    rcases hentries c e he with hbefore | hnow
    · obtain ⟨l, d, hreach, hl, hhash, hnot⟩ := h.entries c e hbefore
      obtain ⟨hl', hnot'⟩ := hpass.file_of_not_pends hl hnot
      exact ⟨l, d, hreach.guided_file hpass.guides hl', hl', hhash, hnot'⟩
    · exact hnow
  stays := by
    intro w hw
    rcases List.mem_append.1 hw with hw | hw
    · exact (h.stays w hw).imp fun _ _ hs => hpass.stays hs
    · exact List.mem_singleton.1 hw ▸ hv
  guides := by
    intro w hw
    rcases List.mem_append.1 hw with hw | hw
    · exact (h.guides w hw).trans hpass.guides
    · rw [List.mem_singleton.1 hw, hbefore]
      exact hpass.guides
  present := by
    intro w hw l hl
    have hnext : (st.files.node? l).isSome → (st'.files.node? l).isSome ∨
        ∃ w ∈ past ++ [v], w.item.parent.isSome ∧ w.before.files.Reaches false w.item.path l :=
      fun hl => (hpass.present hl).imp id fun ⟨hcreated, hreach⟩ =>
        ⟨v, by simp, hcreated, hreach⟩
    rcases List.mem_append.1 hw with hw | hw
    · rcases h.present w hw l hl with hl | ⟨u, hu, hremoved⟩
      · exact hnext hl
      · exact .inr ⟨u, List.mem_append_left _ hu, hremoved⟩
    · rw [List.mem_singleton.1 hw, hbefore] at hl
      exact hnext hl

/-- The files that wait after a visit waited before, or were not there. -/
theorem pends_advance (h : Kept setup origin past st) (hw : st.waiting = item :: rest)
    (hguides : st.files.Guides st'.files) {new : List Item} (hw' : st'.waiting = new ++ rest)
    (hnew : st.Brings st' new) {l : Location} (hl : st'.Pends l) :
    st.Pends l ∨ st.files.node? l = none := by
  obtain ⟨i, hi, hparent, hreach⟩ := hl
  rw [hw'] at hi
  rcases List.mem_append.1 hi with hi | hi
  · obtain ⟨-, content, k, hnone, hheld⟩ := hnew i hi hparent
    rw [hheld.reaches.unique hreach]
    exact .inr hnone
  · exact .inl (pends_of_behind hw hguides hi hparent h hreach).1

/-- The file that a visited path leads to does not wait afterwards. -/
theorem not_pends_after (h : Kept setup origin past st) (hw : st.waiting = item :: rest)
    (hguides : st.files.Guides st'.files) {new : List Item} (hw' : st'.waiting = new ++ rest)
    (hnew : st.Brings st' new) {l : Location} {content : Bytes}
    (hreach : st.files.Reaches true item.path l)
    (hl : st.files.node? l = some (.file content)) : ¬ st'.Pends l := by
  rintro ⟨i, hi, hparent, hi'⟩
  rw [hw'] at hi
  rcases List.mem_append.1 hi with hi | hi
  · obtain ⟨-, d, k, hnone, hheld⟩ := hnew i hi hparent
    rw [← hheld.reaches.unique hi', hl] at hnone
    cases hnone
  · exact h.not_pends_behind hw hreach hi hparent
      (pends_of_behind hw hguides hi hparent h hi').2

/-- A visit that leaves the files alone. -/
theorem quiet (h : Kept setup origin past st) (hw : st.waiting = item :: rest) (st' : State)
    (hfiles : st'.files = st.files) {es : List Entry}
    (hreport : st'.report.entries = st.report.entries ++ es) {new : List Item}
    (hw' : st'.waiting = new ++ rest)
    (hinputs : new = [] ∨ item.parent.isSome = false ∧ ∀ i ∈ new, i.parent.isSome = false)
    (hentries : ∀ c e, st'.entryWith? setup c = some e → st.entryWith? setup c = some e)
    {v : Visit} (hbefore : v.before.files = st.files) (hnone : v.evaluation? setup = none) :
    Kept setup origin (past ++ [v]) st' := by
  have hkeeps : st.files.Keeps st'.files := by
    rw [hfiles]
    exact .refl _
  have hinput : ∀ i ∈ new, i.parent.isSome = false := by
    rcases hinputs with rfl | ⟨-, hnew⟩
    · exact nofun
    · exact hnew
  have hnew : st.Brings st' new := by
    intro i hi hparent
    rw [hinput i hi] at hparent
    cases hparent
  have hpends : ∀ {l}, st'.Pends l → st.Pends l ∨ st.files.node? l = none :=
    h.pends_advance hw hkeeps.guides hw' hnew
  refine h.advance hw (.of_keeps hkeeps hpends hreport) (hfiles ▸ h.tree) (hfiles ▸ h.keeps) hw'
    ?_ hnew ?_ (fun c e he => .inl (hentries c e he)) hbefore (Visit.eachDeposit_of_none hnone _)
  · rcases hinputs with rfl | hinputs
    · exact .inl nofun
    · exact .inr hinputs
  · refine List.pairwise_of_forall_mem_list fun a ha b _ hparent => ?_
    rw [hinput a ha] at hparent
    cases hparent

/-- An entry that can be referred to after one more was entered. -/
theorem of_entryWith?_commit {e f : Entry} {c : Bytes}
    (h : (st.commit e).entryWith? setup c = some f) :
    st.entryWith? setup c = some f ∨ st.entryWith? setup c = none ∧
      e.content.map setup.system.hash = some (setup.system.hash c) ∧ f = e := by
  unfold State.entryWith? at h ⊢
  rw [State.commit, List.find?_append] at h
  cases hold : st.report.entries.find? fun e =>
      e.content.map setup.system.hash == some (setup.system.hash c) with
  | some g =>
      rw [hold, Option.some_or] at h
      exact .inl h
  | none =>
      rw [hold, Option.none_or] at h
      obtain ⟨hmem, hhash⟩ := And.intro (List.mem_of_find?_eq_some h) (List.find?_some h)
      obtain rfl := List.mem_singleton.1 hmem
      exact .inr ⟨rfl, eq_of_beq hhash, rfl⟩

/-- A duplicate does not change which entry is referred to. -/
theorem entryWith?_commit_old {e f : Entry} {c d : Bytes}
    (hold : (st.entryWith? setup c).isSome) (hc : e.content = some c)
    (h : (st.commit e).entryWith? setup d = some f) : st.entryWith? setup d = some f := by
  refine (of_entryWith?_commit h).resolve_right ?_
  rintro ⟨hnone, hhash, -⟩
  rw [hc, Option.map_some, Option.some.injEq] at hhash
  have hsame : st.entryWith? setup c = st.entryWith? setup d := by
    unfold State.entryWith?
    rw [hhash]
  rw [hsame, hnone] at hold
  cases hold

/--
A duplicate that was created by this scan becomes a reference, or is gone.  The earlier file is
elsewhere, because it does not wait; and no other path that waits leads to the reference.
-/
theorem replaced (h : Kept setup origin past st) (hw : st.waiting = item :: rest)
    (hparent : item.parent.isSome) {out : OutputDir} (hin : out.contains item.path = true)
    {content : Bytes} {earlier : Entry} (hread : st.files.readFile item.path = .ok content)
    (hold : st.entryWith? setup content = some earlier) :
    ∃ r files, out.replaceWithReference st.files item.path earlier.path setup.system.references =
        (r, files) ∧ files.IsTree ∧ origin.Keeps files ∧
      ∀ (st' : State) (es : List Entry), st'.files = files → st'.waiting = rest →
        st'.report.entries = st.report.entries ++ es →
        (∀ cause, r = .error cause →
          ∃ e ∈ (Visit.after setup ⟨{ st with waiting := rest }, item⟩).report.entries,
            e.id = st.nextId ∧ Diagnostic.ofError none cause ∈ e.errors) →
        st.Passes setup ⟨{ st with waiting := rest }, item⟩ st' := by
  obtain ⟨hpath, c, l, hnew, hheld⟩ := h.pending item (by simp [hw]) hparent
  obtain ⟨l', d, hreach', hl', hhash, hnot⟩ := h.entries content earlier hold
  have hpends : st.Pends l := ⟨item, by simp [hw], hparent, hheld.reaches⟩
  have hne : l' ≠ l := by
    rintro rfl
    exact hnot hpends
  have hcontent : c = content := by
    rw [hheld.readFile h.tree] at hread
    exact Except.ok.inj hread
  subst hcontent
  obtain ⟨r, files, hreplace, halters, htree, hrefers⟩ :=
    OutputDir.replaceWithReference_of_reaches setup.system.references h.tree hin hpath
      hheld.reaches hheld.node hreach' hl' nofun hne
  have hguides : st.files.Guides files := halters.guides hheld.node
  refine ⟨r, files, hreplace, htree, ⟨halters.current.trans h.keeps.current, ?_⟩, ?_⟩
  · intro loc node hloc
    have hkl : loc ≠ l := by
      rintro rfl
      rw [hloc] at hnew
      cases hnew
    rw [halters.elsewhere hkl]
    exact h.keeps.node hloc
  · rintro st' es rfl hw' hreport hrecorded
    have hw'' : st'.waiting = [] ++ rest := hw'
    have hgone : ¬ st'.Pends l :=
      h.not_pends_after hw hguides hw'' nofun (hheld.reaches.follow_last hheld.node) hheld.node
    have hlost : ∀ hforfeits : Visit.Forfeits setup ⟨{ st with waiting := rest }, item⟩,
        Visit.Lost setup ⟨{ st with waiting := rest }, item⟩ l c earlier :=
      fun hforfeits => ⟨hforfeits, hheld.reaches, hold⟩
    refine ⟨halters.current, fun {k node} hk => ?_, h.pends_advance hw hguides hw'' nofun,
      State.recalls_of_append hreport⟩
    by_cases hkl : k = l
    · subst hkl
      rw [hheld.node, Option.some.injEq] at hk
      refine .inr ⟨c, hk.symm, hpends, hgone, hparent, hheld.reaches, ?_⟩
      cases hrefers with
      | link _ hlink => exact .inl ⟨l', d, hlink, hl', hhash, hnot⟩
      | note hlinks _ => exact .inr ⟨earlier, hlost (.noted hlinks), hold⟩
      | refused hrefused _ =>
          exact .inr ⟨earlier, hlost (.refused hrefused (hrecorded _ rfl)), hold⟩
    · exact .inl ((halters.elsewhere hkl).trans hk)

/-- A duplicate is entered, and the files stay or one of them becomes a reference. -/
theorem duplicate (h : Kept setup origin past st) (hw : st.waiting = item :: rest)
    {size : Nat} {content : Bytes} {earlier : Entry}
    (hread : st.files.readFile item.path = .ok content)
    (hold : st.entryWith? setup content = some earlier)
    (hafter : Visit.after setup ⟨{ st with waiting := rest }, item⟩ = st')
    (hst' : st' = commitDuplicate setup.system.references { st with waiting := rest }
      (({ st with waiting := rest } : State).readEntryFor item size content) earlier)
    (hnone : Visit.evaluation? setup ⟨{ st with waiting := rest }, item⟩ = none) :
    Kept setup origin (past ++ [⟨{ st with waiting := rest }, item⟩]) st' := by
  have hsome : (st.entryWith? setup content).isSome := by
    rw [hold]
    rfl
  have hplain : ∀ e : Entry, e.content = some content →
      Kept setup origin (past ++ [⟨{ st with waiting := rest }, item⟩])
        (({ st with waiting := rest } : State).commit e) := by
    intro e he
    refine h.quiet hw (({ st with waiting := rest } : State).commit e) rfl rfl
      (List.nil_append rest).symm (.inl rfl) (fun c f hf => ?_) rfl hnone
    exact entryWith?_commit_old hsome he hf
  unfold commitDuplicate at hst'
  dsimp only at hst'
  split at hst'
  · exact hst' ▸ hplain _ rfl
  · next out hout =>
    split at hst'
    · next hcond =>
      rw [Bool.and_eq_true] at hcond
      obtain ⟨r, files, hreplace, htree, hkeeps, hpass⟩ :=
        h.replaced hw hcond.1 hcond.2 hread hold
      have hmarked : ∃ e : Entry, st' = ({ st with waiting := rest, files } : State).commit e ∧
          e.content = some content ∧ e.id = st.nextId ∧
          ∀ cause, r = .error cause → Diagnostic.ofError none cause ∈ e.errors := by
        split at hst'
        · next heq =>
          obtain ⟨rfl, rfl⟩ := Prod.mk.inj (hreplace.symm.trans heq)
          exact ⟨_, hst', rfl, rfl, nofun⟩
        · next cause _ heq =>
          obtain ⟨rfl, rfl⟩ := Prod.mk.inj (hreplace.symm.trans heq)
          refine ⟨_, hst', rfl, rfl, fun cause' hcause => ?_⟩
          rw [Except.error.inj hcause]
          exact List.mem_append_right _ List.mem_cons_self
      obtain ⟨e, rfl, hcontent, hid, herrors⟩ := hmarked
      refine h.advance hw (hpass _ [e] rfl rfl rfl fun cause hcause => ?_) htree hkeeps
        (List.nil_append rest).symm (.inl nofun) nofun .nil (fun c f hf => .inl ?_) rfl
        (Visit.eachDeposit_of_none hnone _)
      · rw [hafter]
        exact ⟨e, List.mem_append_right _ List.mem_cons_self, hid, herrors cause hcause⟩
      · exact entryWith?_commit_old hsome hcontent hf
    · exact hst' ▸ hplain _ rfl

/-- What an evaluation created are new files. -/
theorem brings_of_gained {s t : Session} {W : List (Path × Bytes)} (hgained : s.Gained W t)
    (hs : s.files = st.files) (ht : st'.files = t.files) {ps : List Path}
    (hps : ∀ p ∈ ps, p ∈ W.map Prod.fst) (parent : Option FileId) (depth : Nat) :
    st.Brings st' (ps.map fun p => ⟨p, parent, depth⟩) := by
  intro i hi _
  obtain ⟨p, hp, rfl⟩ := List.mem_map.1 hi
  obtain ⟨d, hd, rfl⟩ := List.mem_map.1 (hps p hp)
  obtain ⟨root, name, -, hname, hpath⟩ := hgained.inside d hd
  obtain ⟨l, hnone, hheld⟩ := hgained.held d hd
  exact ⟨hpath ▸ Path.isPlain_join root hname, d.2, l, hs ▸ hnone, ht ▸ hheld⟩

/-- An evaluation keeps the invariant, if some of what it created waits in front of the others and
the entries that can be referred to lead to files that do not wait. -/
theorem of_evaluation (h : Kept setup origin past st) (hw : st.waiting = item :: rest)
    (hops : setup.env.operators = .builtins) {s t : Session}
    (hst : Visit.evaluation? setup ⟨{ st with waiting := rest }, item⟩ = some (s, t))
    (hfiles : st'.files = t.files) {es : List Entry}
    (hreport : st'.report.entries = st.report.entries ++ es) {ps : List Path}
    (hps : ps.Sublist t.effects.created) {parent : FileId} {depth : Nat}
    (hw' : st'.waiting = ps.map (fun p => ⟨p, some parent, depth⟩) ++ rest)
    (hentries : st.files.Keeps st'.files →
      st.Brings st' (ps.map fun p => ⟨p, some parent, depth⟩) → ∀ c e,
      st'.entryWith? setup c = some e →
        st.entryWith? setup c = some e ∨ st'.Backs setup e c) :
    Kept setup origin (past ++ [⟨{ st with waiting := rest }, item⟩]) st' := by
  obtain ⟨W, hdeposits, hgained, -, hcreated⟩ := gained_of_evaluation hops hst h.tree
  have hsfiles : s.files = st.files := (evaluation?_eq_some hst).1
  have hkeeps : st.files.Keeps st'.files := hfiles ▸ hsfiles ▸ hgained.keeps
  have hbrings := brings_of_gained hgained hsfiles hfiles
    (fun p hp => hcreated.symm ▸ hps.subset hp) (some parent) depth
  have hpends : ∀ {l}, st'.Pends l → st.Pends l ∨ st.files.node? l = none :=
    h.pends_advance hw hkeeps.guides hw' hbrings
  refine h.advance hw (.of_keeps hkeeps hpends hreport) (hfiles ▸ hgained.stocked.tree)
    (h.keeps.trans hkeeps) hw' (.inl fun i hi => ?_) hbrings ?_ (hentries hkeeps hbrings) rfl
    (Visit.stays_of_gained hst hdeposits hgained hcreated hfiles)
  · obtain ⟨p, -, rfl⟩ := List.mem_map.1 hi
    rfl
  · -- the files that were created lie apart
    have hapart := hgained.apart
    rw [← List.pairwise_map (f := Prod.fst) (R := fun p q => ∀ l, t.files.Reaches false p l →
      ¬ t.files.Reaches false q l), hcreated] at hapart
    refine List.pairwise_map.2 ((hapart.sublist hps).imp ?_)
    intro p q hpq _ _ l hp hq
    rw [hfiles] at hp hq
    exact hpq l hp hq

/-- The rules are evaluated against a file.  What they created waits in front of the others, and
the file itself does not wait. -/
theorem evaluated (h : Kept setup origin past st) (hw : st.waiting = item :: rest)
    (hops : setup.env.operators = .builtins) {size : Nat} {content : Bytes} {s t : Session}
    (hlook : look setup st.files item.path = .file size)
    (hread : st.files.readFile item.path = .ok content)
    (hst : Visit.evaluation? setup ⟨{ st with waiting := rest }, item⟩ = some (s, t))
    {events : List Event} {e : Entry} (hcontent : e.content = some content)
    (hpath : e.path = item.path) :
    Kept setup origin (past ++ [⟨{ st with waiting := rest }, item⟩])
      ((({ st with waiting := rest, files := t.files, output := t.output, events } : State).commit
        e).enqueueAll (some e.id) (e.depth + 1) t.effects.created) := by
  let st₁ : State :=
    ({ st with waiting := rest, files := t.files, output := t.output, events } : State).commit e
  obtain ⟨ps, hps, hw'⟩ :=
    State.exists_waiting_enqueueAll st₁ (some e.id) (e.depth + 1) t.effects.created
  have hfiles := (State.files_enqueueAll st₁ (some e.id) (e.depth + 1) t.effects.created).1
  have hreport := State.report_enqueueAll st₁ (some e.id) (e.depth + 1) t.effects.created
  have hentries : (st₁.enqueueAll (some e.id) (e.depth + 1) t.effects.created).report.entries =
      st.report.entries ++ [e] := congrArg Report.entries hreport
  refine h.of_evaluation hw hops hst hfiles hentries hps hw' fun hkeeps hbrings c f hf => ?_
  rw [State.entryWith?, hreport] at hf
  rcases of_entryWith?_commit hf with hbefore | ⟨-, hc, rfl⟩
  · exact .inl hbefore
  · -- the new entry leads to the file that was read
    rw [hcontent, Option.map_some, Option.some.injEq] at hc
    obtain ⟨l, d, hreach, hl⟩ := look_file h.tree hlook
    rw [readFile_of_reaches h.tree hreach hl, Except.ok.injEq] at hread
    subst hread
    have hguides := hkeeps.guides
    have hl' := hkeeps.node hl
    exact .inr ⟨l, d, hpath ▸ hreach.guided_file hguides hl', hl', hc,
      h.not_pends_after hw hguides hw' hbrings hreach hl⟩

/-- Every way of dealing with a path keeps the invariant. -/
theorem visit (h : Kept setup origin past st) (hops : setup.env.operators = .builtins)
    (hw : st.waiting = item :: rest) {cause : Option Error}
    (hvisit : Scan.visit setup { st with waiting := rest } item = (st', cause)) :
    Kept setup origin (past ++ [⟨{ st with waiting := rest }, item⟩]) st' := by
  have hvisited := visited_of_visit hvisit
  have hafter : Visit.after setup ⟨{ st with waiting := rest }, item⟩ = st' := by
    rw [Visit.after, hvisit]
  generalize hev : Visit.evaluation? setup ⟨{ st with waiting := rest }, item⟩ = sessions
    at hvisited
  cases hvisited with
  | failed size cause =>
      refine h.quiet hw (({ st with waiting := rest } : State).commit _) rfl rfl
        (List.nil_append rest).symm (.inl rfl) (fun c e he => ?_) rfl hev
      exact (of_entryWith?_commit he).resolve_right nofun
  | warned message hlook =>
      exact h.quiet hw (({ st with waiting := rest } : State).warn message) rfl
        (List.append_nil _).symm (List.nil_append rest).symm (.inl rfl) (fun c e he => he) rfl hev
  | expanded names faults hlook =>
      let st₁ : State := ({ st with waiting := rest } : State).warnAll faults
      obtain ⟨ps, -, hwaiting⟩ := State.exists_waiting_enqueueAll st₁ item.parent item.depth
        (names.map item.path.join)
      have hfiles :=
        (State.files_enqueueAll st₁ item.parent item.depth (names.map item.path.join)).1
      have hreport := State.report_enqueueAll st₁ item.parent item.depth (names.map item.path.join)
      have hinput : item.parent.isSome = false := by
        cases hparent : item.parent.isSome with
        | false => rfl
        | true =>
            obtain ⟨-, c, l, -, hheld⟩ := h.pending item (by simp [hw]) hparent
            rw [look_of_holds h.tree hheld] at hlook
            cases hlook
      refine h.quiet hw _ hfiles ((congrArg Report.entries hreport).trans
        (List.append_nil _).symm) hwaiting (.inr ⟨hinput, ?_⟩) (fun c e he => ?_) rfl hev
      · intro i hi
        obtain ⟨p, -, rfl⟩ := List.mem_map.1 hi
        exact hinput
      · rw [State.entryWith?, hreport] at he
        exact he
  | duplicate size content earlier hlook hread hold =>
      exact h.duplicate hw hread hold hafter rfl hev
  | aborted size content s t events cause hlook hs ht =>
      have hwaiting : rest = [].map (fun p => (⟨p, some 0, 0⟩ : Item)) ++ rest := rfl
      exact h.of_evaluation hw hops hev rfl (List.append_nil _).symm (List.nil_sublist _)
        hwaiting fun _ _ _ _ he => .inl he
  | evaluated size content s t events e ms hlook hread hnew hs ht he =>
      exact h.evaluated hw hops hlook hread hev (by rw [he]; rfl) (by rw [he]; rfl)

/-- When the inputs wait, nothing was created yet. -/
theorem start (setup : Setup) {files' : FileSystem} (htree : files'.IsTree)
    (hkeeps : origin.Keeps files') (output : Option OutputDir) (inputs : List Path) :
    Kept setup origin [] ((State.start files' output).enqueueAll none 0 inputs) := by
  obtain ⟨ps, -, hwaiting⟩ :=
    State.exists_waiting_enqueueAll (State.start files' output) none 0 inputs
  have hfiles := (State.files_enqueueAll (State.start files' output) none 0 inputs).1
  have hreport := State.report_enqueueAll (State.start files' output) none 0 inputs
  generalize State.enqueueAll _ none 0 inputs = st at hwaiting hfiles hreport ⊢
  have hfiles' : st.files = files' := hfiles
  have hinput : ∀ i ∈ st.waiting, i.parent.isSome = false := by
    intro i hi
    rw [hwaiting] at hi
    obtain ⟨p, -, rfl⟩ := List.mem_map.1 ((List.append_nil _).symm ▸ hi)
    rfl
  refine ⟨hfiles' ▸ htree, hfiles' ▸ hkeeps, ?_, ?_, ?_, ?_, nofun, nofun, nofun⟩
  · refine List.pairwise_of_forall_mem_list fun a _ b hb hparent => ?_
    rw [hinput b hb] at hparent
    cases hparent
  · intro i hi hparent
    rw [hinput i hi] at hparent
    cases hparent
  · refine List.pairwise_of_forall_mem_list fun a ha b _ hparent => ?_
    rw [hinput a ha] at hparent
    cases hparent
  · intro c e he
    rw [State.entryWith?, hreport] at he
    cases he

end Kept

/-! ## Whole scans -/

theorem keeps_openOutput (config : Config) {files : FileSystem} (htree : files.IsTree) :
    (openOutput config files).2.IsTree ∧ files.Keeps (openOutput config files).2 := by
  unfold openOutput
  split
  · exact ⟨htree, .refl files⟩
  · next root _ =>
    have hensure := keeps_ensureDirectory htree root
    unfold OutputDir.open?
    cases hroot : files.ensureDirectory root with
    | mk outcome files' =>
        rw [hroot] at hensure
        cases outcome <;> exact hensure

section Scanning

variable {setup : Setup} {origin : FileSystem} {st last : State} {vs : List Visit}

theorem Works.kept (h : Works setup st vs last) (hops : setup.env.operators = .builtins)
    (hst : Kept setup origin [] st) : Kept setup origin vs last :=
  h.preserves (Kept setup origin)
    (fun _ _ _ _ _ hkept hwaiting hvisit => hkept.visit hops hwaiting hvisit) hst

/-- The file that a path led to was removed as a duplicate of one that can still be read. -/
def Forfeited (setup : Setup) (vs : List Visit) (files : FileSystem) (p : Path)
    (bytes : Bytes) : Prop :=
  ∃ v ∈ vs, ∃ l, v.Forfeits setup ∧ v.before.files.Reaches false v.item.path l ∧
    files.Reaches false p l ∧
    ∃ e ∈ v.before.report.entries, files.readFile e.path = .ok bytes

/-- Files as a scan leaves them: what was there before is there, and what was deposited can be
read.  Where a duplicate cannot be replaced by a link, its path may be lost, but not its bytes. -/
structure Secured (setup : Setup) (origin : FileSystem) (vs : List Visit) (files : FileSystem) :
    Prop where
  kept : ∀ loc node, origin.node? loc = some node → files.node? loc = some node
  readable : ∀ v ∈ vs, v.EachDeposit setup fun p bytes =>
    files.readFile p ≠ .error .tooManyLinks →
      files.readFile p = .ok bytes ∨ Forfeited setup vs files p bytes
  intact : setup.system.references.IsReliable → ∀ v ∈ vs, v.EachDeposit setup fun p bytes =>
    files.readFile p ≠ .error .tooManyLinks → files.readFile p = .ok bytes

/-- Where every link can be created, no file is forfeited. -/
theorem Visit.Forfeits.not_isReliable {v : Visit} (h : v.Forfeits setup) :
    ¬ setup.system.references.IsReliable := by
  intro hreliable
  cases h with
  | noted hlinks =>
      rw [hreliable.links] at hlinks
      cases hlinks
  | refused hrefused _ =>
      rw [hreliable.refused] at hrefused
      cases hrefused

/-- What stays is read, unless too many links are on the way or the file was forfeited. -/
theorem Kept.readFile (h : Kept setup origin vs st) (hinj : Function.Injective setup.system.hash)
    {p : Path} {bytes : Bytes} (hs : st.Stays setup vs p bytes)
    (hlinks : st.files.readFile p ≠ .error .tooManyLinks) :
    st.files.readFile p = .ok bytes ∨ Forfeited setup vs st.files p bytes := by
  rcases hs with ⟨l, hheld⟩ | ⟨l, origin, c, ⟨k, -, hleads⟩, hlink, horigin, hhash, -⟩ |
    ⟨v, hv, l, e, hreach, hlost, he⟩
  · exact .inl (hheld.readFile h.tree)
  · obtain rfl := hinj hhash
    have hthrough := hleads.through_link h.tree hlink horigin
    exact .inl ((readFile_of_leadsTo h.tree hthrough horigin).resolve_right hlinks)
  · obtain ⟨l', d, hreach', hl', hhash, -⟩ := h.entries bytes e he
    obtain rfl := hinj hhash
    exact .inr ⟨v, hv, l, hlost.forfeits, hlost.reaches, hreach, e,
      List.mem_of_find?_eq_some hlost.earlier, readFile_of_reaches h.tree hreach' hl'⟩

theorem Kept.secured (h : Kept setup origin vs st)
    (hinj : Function.Injective setup.system.hash) : Secured setup origin vs st.files where
  kept _ _ hloc := h.keeps.node hloc
  readable v hv := (h.stays v hv).imp fun _ _ hs hlinks => h.readFile hinj hs hlinks
  intact hreliable v hv := (h.stays v hv).imp fun _ _ hs hlinks =>
    (h.readFile hinj hs hlinks).resolve_right fun ⟨_, _, _, hforfeits, _⟩ =>
      hforfeits.not_isReliable hreliable

/-- Whichever way a scan ends, its files are secured. -/
theorem Ends.secured {result : Result} (h : Ends setup st vs result)
    (hops : setup.env.operators = .builtins) (hinj : Function.Injective setup.system.hash)
    (hst : Kept setup origin [] st) : Secured setup origin vs result.files := by
  cases h with
  | finished hworks _ => exact (hworks.kept hops hst).secured hinj
  | aborted hworks hw hvisit => exact ((hworks.kept hops hst).visit hops hw hvisit).secured hinj
  | exhausted hworks => exact (hworks.kept hops hst).secured hinj

end Scanning

/-- A scan in which a rule writes a file that has the content of the input. -/
def copyingSetup : Setup :=
  { writingSetup with config := { maxDepth := 1, output := some "out" } }

/-- Where links are refused, the new file is lost: nothing takes its place. -/
example : (scanWithin 4
    { copyingSetup with system :=
      { System.plain with references := ⟨true, fun _ _ _ => some (.other "not supported")⟩ } }
    ⟨Table.ofList [(["a"], .file [1])], []⟩ ["a"]).files.node? ["out", "x"] = none := by
  decide +kernel

end RuleScan.Scan
