import RuleScan.Proofs.Scan.Children
import RuleScan.Proofs.Scan.Tracking

/-!
# No extracted file is lost

A path that was on the list before is dropped when it is put there again.  This must not happen
to a file that was just created, or the file would get no entry.  It cannot happen unless an
input was given that lies inside the output directory and does not exist yet: all other paths
that were ever on the list are plain paths of something that exists, or of a duplicate that was
created and is gone.  A file is created where nothing exists, under a name that was not handed out
before.

So everything that an evaluation creates is put on the list, gets an entry of its own when its
turn comes, and becomes a child of the file that it was created from.

## Main results

* `not_hasUsed_of_isFree` — a free path leads to a place that was not used yet.
* `IsFresh.queued_eq_created` — what is created was not on the list before.
* `IsFresh.visit` — what is on the list has a place that was used, unless it was an input.
* `scanWithin_isExtracted` — what is created from a file are its children, and nothing else.
-/

namespace RuleScan.Scan

open FileSystem

/-- The path was handed out by the output directory. -/
def State.HasTaken (st : State) (p : Path) : Prop :=
  ∃ out name, st.output = some out ∧ Path.IsName name ∧ p = out.root.join name ∧ p ∈ out.taken

/-- Something is at a location, or was put there by this scan. -/
def State.HasUsed (st : State) (l : Location) : Prop :=
  (st.files.node? l).isSome ∨ ∃ p, st.HasTaken p ∧ st.files.Reaches false p l

/-- The output directory goes on handing out paths. -/
def State.HandsOn (st st' : State) : Prop :=
  ∀ out, st.output = some out → ∃ more, st'.output = some { out with taken := more ++ out.taken }

/-- What was created has paths that were handed out, and what was ever on the list has a place
that was used, unless it was an input; so everything that was created was put on the list. -/
structure IsFresh (setup : Setup) (inputs : List Path) (past : List Visit) (st : State) : Prop where
  root : st.output.map OutputDir.root = setup.config.output
  taken : ∀ item, item ∈ st.waiting ∨ item ∈ past.map Visit.item → item.parent.isSome →
    st.HasTaken item.path
  known : ∀ c ∈ st.seen, (∃ p ∈ inputs, p.components = c) ∨
    ∃ (q : Path) (l : Location), q.IsPlain ∧ q.components = c ∧ st.files.Reaches false q l ∧
      st.HasUsed l
  queued : ∀ v ∈ past, v.queued setup = v.created setup

section Taking

variable {st st' : State} {p q : Path} {l : Location}

theorem State.HandsOn.of_output (h : st'.output = st.output) : st.HandsOn st' :=
  fun _ hout => ⟨[], h.trans hout⟩

theorem State.HasTaken.handsOn (h : st.HasTaken p) (hon : st.HandsOn st') : st'.HasTaken p := by
  obtain ⟨out, name, hout, hname, hpath, hp⟩ := h
  obtain ⟨more, hmore⟩ := hon out hout
  exact ⟨_, name, hmore, hname, hpath, List.mem_append_right _ hp⟩

/-- A path that is free in the output directory leads to a place that was not used yet. -/
theorem not_hasUsed_of_isFree (htree : st.files.IsTree) {out : OutputDir}
    (hout : st.output = some out) {name : String} (hname : Path.IsName name)
    (hfree : out.isFree st.files (out.root.join name) = true)
    (hreach : st.files.Reaches false (out.root.join name) l) : ¬ st.HasUsed l := by
  obtain ⟨htaken, hnone⟩ := OutputDir.isFree_iff.1 hfree
  rintro (hsome | ⟨p, ⟨out', other, hout', hother, rfl, hp⟩, hreach'⟩)
  · rw [(exists?_iff htree).2 ⟨l, hreach, hsome⟩] at hnone
    cases hnone
  · -- a path that leads to the same place ends in the same name
    obtain rfl := Option.some.inj (hout.symm.trans hout')
    obtain ⟨d, rfl, hsibling⟩ := hreach.sibling hname
    have hsame : d ++ [name] = d ++ [other] := (hsibling hother).unique hreach'
    obtain rfl : name = other := by simpa using hsame
    exact htaken _ hp rfl

/-- What is created is a name in the output directory that was free. -/
theorem isFree_of_created {setup : Setup} {v : Visit} (hops : setup.env.operators = .builtins)
    (htree : v.before.files.IsTree) (hp : p ∈ v.created setup) :
    ∃ out name, v.before.output = some out ∧ Path.IsName name ∧ p = out.root.join name ∧
      out.isFree v.before.files p = true := by
  unfold Visit.created at hp
  split at hp
  · next s t hst =>
    obtain ⟨hfiles, houtput, -⟩ := evaluation?_eq_some hst
    obtain ⟨out, hout⟩ := output_of_created hops hst htree hp
    obtain ⟨more, -, hall⟩ := handsOut_of_evaluation hops hst htree hout
    obtain ⟨-, hfree, name, hname, hpath⟩ := hall p hp
    exact ⟨out, name, houtput ▸ hout, hname, hpath, hfiles ▸ hfree⟩
  · cases hp

end Taking

namespace IsFresh

variable {setup : Setup} {origin : FileSystem} {inputs : List Path} {past : List Visit}
  {st st' : State} {item : Item} {rest : List Item}

/-- What is created lies inside the output directory, where no input is, and its place was not
used before. -/
theorem queued_eq_created (h : IsFresh setup inputs past st)
    (hops : setup.env.operators = .builtins) (htree : st.files.IsTree)
    (hinputs : ∀ root ∈ setup.config.output, ∀ p ∈ inputs, p.startsWith root → p.same root) :
    Visit.queued setup ⟨{ st with waiting := rest }, item⟩ =
      Visit.created setup ⟨{ st with waiting := rest }, item⟩ := by
  unfold Visit.queued
  refine List.filter_eq_self.2 fun p hp => ?_
  obtain ⟨out, name, hout, hname, rfl, hfree⟩ :=
    isFree_of_created (v := ⟨{ st with waiting := rest }, item⟩) hops htree hp
  suffices hnot : (out.root.join name).components ∉ st.seen by simpa using hnot
  intro hseen
  rcases h.known _ hseen with ⟨p, hp, hsame⟩ | ⟨q, l, hq, hsame, hreach, hused⟩
  · -- an input with these components would lie strictly inside the output directory
    have hroot : out.root ∈ setup.config.output := by
      rw [← h.root, show st.output = some out from hout]
      rfl
    have hjoin : p.components = out.root.components ++ [.name name] := by
      rw [hsame, Path.components_join out.root hname]
    have hinside : p.startsWith out.root = true := by
      simp [Path.startsWith, hjoin]
    have heq := Path.same_iff.1 (hinputs out.root hroot p hp hinside)
    rw [hjoin] at heq
    exact absurd heq (by simp)
  · have hreach' := hreach.respell hq (Path.isPlain_join out.root hname) hsame
    exact not_hasUsed_of_isFree htree hout hname hfree hreach' hused

/-- What a visit does to the output directory and to the list: what was created has been handed
out, and what is new on the list exists. -/
structure Adds (st st' : State) (rest : List Item) : Prop where
  hands : st.HandsOn st'
  root : st'.output.map OutputDir.root = st.output.map OutputDir.root
  taken : ∀ i ∈ st'.waiting, i ∈ rest ∨ (i.parent.isSome → st'.HasTaken i.path)
  known : ∀ c ∈ st'.seen, c ∈ st.seen ∨
    ∃ q : Path, q.IsPlain ∧ q.components = c ∧ st'.files.exists? q = true

/-- A visit that puts nothing on the list. -/
theorem Adds.of_eq (houtput : st'.output = st.output) (hwaiting : st'.waiting = rest)
    (hseen : st'.seen = st.seen) : Adds st st' rest where
  hands := .of_output houtput
  root := by rw [houtput]
  taken _ hi := .inl (hwaiting ▸ hi)
  known _ hc := .inl (hseen ▸ hc)

/-- The names of a directory are put on the list; the directory is an input. -/
theorem Adds.of_expanded (hk : Kept setup origin past st) (hw : st.waiting = item :: rest)
    {names faults : List String}
    (hlook : look setup st.files item.path = .directory names faults) :
    Adds st ((({ st with waiting := rest } : State).warnAll faults).enqueueAll item.parent
      item.depth (names.map item.path.join)) rest := by
  let st₁ : State := ({ st with waiting := rest } : State).warnAll faults
  obtain ⟨hfiles, houtput⟩ :=
    State.files_enqueueAll st₁ item.parent item.depth (names.map item.path.join)
  obtain ⟨ps, -, hwaiting⟩ :=
    State.exists_waiting_enqueueAll st₁ item.parent item.depth (names.map item.path.join)
  have hinput : item.parent = none :=
    IsAccounted.isInput_of_look hk hw fun size hfile => absurd (hlook.symm.trans hfile) nofun
  refine ⟨.of_output houtput, congrArg (Option.map OutputDir.root) houtput, fun i hi => ?_,
    fun c hc => ?_⟩
  · rw [hwaiting] at hi
    rcases List.mem_append.1 hi with hi | hi
    · obtain ⟨p, -, rfl⟩ := List.mem_map.1 hi
      refine .inr fun hparent => ?_
      rw [hinput] at hparent
      cases hparent
    · exact .inl hi
  · rcases (State.mem_seen_enqueueAll _ _ _).1 hc with ⟨p, hp, rfl⟩ | hc
    · obtain ⟨name, hname, rfl⟩ := List.mem_map.1 hp
      obtain ⟨hisName, hex⟩ := look_directory hk.tree hlook hname
      exact .inr ⟨_, Path.isPlain_join item.path hisName, rfl, by rw [hfiles]; exact hex⟩
    · exact .inl hc

/-- What an evaluation created is put on the list. -/
theorem Adds.of_evaluated (htree : st.files.IsTree) (hops : setup.env.operators = .builtins)
    {s t : Session}
    (hev : Visit.evaluation? setup ⟨{ st with waiting := rest }, item⟩ = some (s, t))
    (events : List Event) (e : Entry) :
    Adds st ((({ st with waiting := rest, files := t.files, output := t.output, events } : State)
      |>.commit e).enqueueAll (some e.id) (e.depth + 1) t.effects.created) rest := by
  obtain ⟨W, -, hgained, -, hcreated⟩ := gained_of_evaluation hops hev htree
  have hsoutput : s.output = st.output := (evaluation?_eq_some hev).2.1
  let st₁ : State :=
    ({ st with waiting := rest, files := t.files, output := t.output, events } : State).commit e
  obtain ⟨hfiles, houtput⟩ :=
    State.files_enqueueAll st₁ (some e.id) (e.depth + 1) t.effects.created
  obtain ⟨ps, hps, hwaiting⟩ :=
    State.exists_waiting_enqueueAll st₁ (some e.id) (e.depth + 1) t.effects.created
  have houtput' : (st₁.enqueueAll (some e.id) (e.depth + 1) t.effects.created).output =
      t.output := houtput
  refine ⟨fun out hout => ?_, ?_, fun i hi => ?_, fun c hc => ?_⟩
  · obtain ⟨more, hmore, -⟩ := handsOut_of_evaluation hops hev htree (hsoutput.trans hout)
    exact ⟨more, houtput'.trans hmore⟩
  · rw [houtput', hgained.root, hsoutput]
  · rw [hwaiting] at hi
    rcases List.mem_append.1 hi with hi | hi
    · obtain ⟨p, hp, rfl⟩ := List.mem_map.1 hi
      obtain ⟨out, hout⟩ := output_of_created hops hev htree (hps.subset hp)
      obtain ⟨more, hmore, hall⟩ := handsOut_of_evaluation hops hev htree hout
      obtain ⟨hmem, -, name, hname, hpath⟩ := hall p (hps.subset hp)
      exact .inr fun _ => ⟨_, name, houtput'.trans hmore, hname, hpath,
        List.mem_append_left _ hmem⟩
    · exact .inl hi
  · rcases (State.mem_seen_enqueueAll _ _ _).1 hc with ⟨p, hp, rfl⟩ | hc
    · rw [← hcreated] at hp
      obtain ⟨d, hd, rfl⟩ := List.mem_map.1 hp
      obtain ⟨root, name, -, hname, hpath⟩ := hgained.inside d hd
      obtain ⟨l, -, hheld⟩ := hgained.held d hd
      refine .inr ⟨d.1, hpath ▸ Path.isPlain_join root hname, rfl, ?_⟩
      rw [hfiles]
      exact hheld.exists? hgained.stocked.tree
    · exact .inl hc

theorem adds_of_visit (hk : Kept setup origin past st) (hops : setup.env.operators = .builtins)
    (hw : st.waiting = item :: rest)
    (hvisit : Scan.visit setup { st with waiting := rest } item = (st', none)) :
    Adds st st' rest := by
  have hvisited := visited_of_visit hvisit
  generalize hev : Visit.evaluation? setup ⟨{ st with waiting := rest }, item⟩ = sessions
    at hvisited
  cases hvisited with
  | failed size cause => exact .of_eq rfl rfl rfl
  | warned message => exact .of_eq rfl rfl rfl
  | duplicate size content earlier =>
      obtain ⟨files, e, heq, -⟩ :=
        commitDuplicate_eq setup.system.references { st with waiting := rest }
          (({ st with waiting := rest } : State).readEntryFor item size content) earlier
      rw [heq]
      exact .of_eq rfl rfl rfl
  | expanded names faults hlook => exact .of_expanded hk hw hlook
  | evaluated size content s t events e ms => exact .of_evaluated hk.tree hops hev events e

/-- What is on the list has a place that was used, unless it was an input: a file that is removed
was created. -/
theorem visit (h : IsFresh setup inputs past st) (hk : Kept setup origin past st)
    (hops : setup.env.operators = .builtins) (hw : st.waiting = item :: rest)
    (hinputs : ∀ root ∈ setup.config.output, ∀ p ∈ inputs, p.startsWith root → p.same root)
    (hvisit : Scan.visit setup { st with waiting := rest } item = (st', none)) :
    IsFresh setup inputs (past ++ [⟨{ st with waiting := rest }, item⟩]) st' := by
  have hk' := hk.visit hops hw hvisit
  obtain ⟨hon, hroot, hwaiting, hseen⟩ := adds_of_visit hk hops hw hvisit
  let v : Visit := ⟨{ st with waiting := rest }, item⟩
  have hlast : v ∈ past ++ [v] := List.mem_append_right _ List.mem_cons_self
  have hbefore : ∀ i, i ∈ st.waiting ∨ i ∈ past.map Visit.item → i.parent.isSome →
      st'.HasTaken i.path := fun i hi hparent => (h.taken i hi hparent).handsOn hon
  have htaken : ∀ i, i ∈ st'.waiting ∨ i ∈ (past ++ [v]).map Visit.item → i.parent.isSome →
      st'.HasTaken i.path := by
    rintro i (hi | hi) hparent
    · rcases hwaiting i hi with hi | hnew
      · exact hbefore i (.inl (by simp [hw, hi])) hparent
      · exact hnew hparent
    · rw [List.map_append, List.mem_append] at hi
      rcases hi with hi | hi
      · exact hbefore i (.inr hi) hparent
      · exact hbefore i (.inl (by simp_all [v])) hparent
  have hused : ∀ l, st.HasUsed l → st'.HasUsed l := by
    rintro l (hsome | ⟨p, hp, hreach⟩)
    · rcases hk'.present v hlast l hsome with hsome | ⟨w, hw', hparent, hreach⟩
      · exact .inl hsome
      · exact .inr ⟨w.item.path, htaken _ (.inr (List.mem_map_of_mem hw')) hparent,
          hreach.guided_entry (hk'.guides w hw')⟩
    · exact .inr ⟨p, hp.handsOn hon, hreach.guided_entry (hk'.guides v hlast)⟩
  refine ⟨hroot.trans h.root, htaken, fun c hc => ?_, fun w hw' => ?_⟩
  · rcases hseen c hc with hold | ⟨q, hq, hsame, hex⟩
    · refine (h.known c hold).imp_right ?_
      rintro ⟨q, l, hq, hsame, hreach, hl⟩
      exact ⟨q, l, hq, hsame, hreach.guided_entry (hk'.guides v hlast), hused l hl⟩
    · obtain ⟨l, hreach, hsome⟩ := (exists?_iff hk'.tree).1 hex
      exact .inr ⟨q, l, hq, hsame, hreach, .inl hsome⟩
  · rcases List.mem_append.1 hw' with hw' | hw'
    · exact h.queued w hw'
    · rw [List.mem_singleton.1 hw']
      exact h.queued_eq_created hops hk.tree hinputs

theorem start {setup : Setup} {files files' : FileSystem} {output : Option OutputDir}
    (hopen : openOutput setup.config files = (.ok output, files')) (inputs : List Path) :
    IsFresh setup inputs [] ((State.start files' output).enqueueAll none 0 inputs) := by
  obtain ⟨-, houtput⟩ := State.files_enqueueAll (State.start files' output) none 0 inputs
  refine ⟨?_, fun i hi hparent => ?_, fun c hc => ?_, nofun⟩
  · rw [houtput]
    show output.map OutputDir.root = setup.config.output
    unfold openOutput at hopen
    split at hopen
    · next hnone =>
      cases hopen
      exact hnone.symm
    · next root hroot =>
      unfold OutputDir.open? at hopen
      cases hdir : files.ensureDirectory root with
      | mk outcome fs =>
          rw [hdir] at hopen
          cases outcome with
          | error cause => cases hopen
          | ok _ =>
              cases hopen
              exact hroot.symm
  · rw [List.map_nil, or_iff_left List.not_mem_nil] at hi
    obtain ⟨ps, -, hwaiting⟩ :=
      State.exists_waiting_enqueueAll (State.start files' output) none 0 inputs
    rw [hwaiting] at hi
    obtain ⟨p, -, rfl⟩ := List.mem_map.1 ((List.append_nil _).symm ▸ hi)
    cases hparent
  · rcases (State.mem_seen_enqueueAll _ _ _).1 hc with hinput | hseen
    · exact .inl hinput
    · cases hseen

end IsFresh

/-! ## Whole scans -/

/-- What was created from a file are its children, each with one entry, and nothing else is; and
every path that waited was dealt with once. -/
structure Report.IsExtracted (setup : Setup) (inputs : List Path) (vs : List Visit) (r : Report) :
    Prop where
  extracted : ∀ v ∈ vs, ∀ p ∈ v.created setup, ∃ e c, v.entries setup = [e] ∧ c ∈ r.entries ∧
    c.path = p ∧ c.parent = some e.id ∧ c.depth = e.depth + 1 ∧
    ∀ d ∈ r.entries, d.path.same p → d = c
  derived : ∀ c ∈ r.entries, ∀ id, c.parent = some id →
    ∃ v ∈ vs, ∃ e, v.entries setup = [e] ∧ e.id = id ∧ c.path ∈ v.created setup
  complete : r.IsComplete setup inputs vs

/-- A visit that creates something leaves the entry that it belongs to. -/
theorem Visit.IsSettled.entry_of_created {setup : Setup} {listed : Path → Prop} {v : Visit}
    (h : v.IsSettled setup listed) {p : Path} (hp : p ∈ v.created setup) :
    ∃ e, v.entries setup = [e] ∧ e.id = v.before.nextId := by
  cases h with
  | entry e hentries _ hid => exact ⟨e, hentries, hid⟩
  | warning message _ _ _ hcreated =>
      rw [hcreated] at hp
      cases hp
  | directory names faults _ _ _ hcreated =>
      rw [hcreated] at hp
      cases hp

/-- If everything that was created was put on the list, and the children of each file are what
was put on the list from it, then nothing was lost. -/
theorem Report.IsComplete.isExtracted {setup : Setup} {inputs : List Path} {vs : List Visit}
    {r : Report} {maxDepth : Nat} (h : r.IsComplete setup inputs vs) (hf : r.IsForest maxDepth)
    (hchildren : ∀ id, (r.children id).map Entry.path = queuedFrom setup vs id)
    (hqueued : ∀ v ∈ vs, v.queued setup = v.created setup) : r.IsExtracted setup inputs vs where
  extracted v hv p hp := by
    obtain ⟨e, hentries, hid⟩ := (h.settled v hv).entry_of_created hp
    have hmem : e ∈ r.entries := by
      rw [h.entries]
      exact List.mem_flatMap.2 ⟨v, hv, by rw [hentries]; exact List.mem_cons_self⟩
    have hpath : p ∈ (r.children e.id).map Entry.path := by
      rw [hchildren]
      refine List.mem_flatMap.2 ⟨v, hv, ?_⟩
      rwa [if_pos hid.symm, hqueued v hv]
    obtain ⟨c, hc, rfl⟩ := List.mem_map.1 hpath
    obtain ⟨hcmem, hparent⟩ := Report.mem_children.1 hc
    obtain ⟨-, f, hfe, hdepth, -⟩ := hf.parents c hcmem e.id hparent
    obtain ⟨i, hi⟩ := List.getElem?_of_mem hmem
    rw [hf.ids i e hi, hi, Option.some.injEq] at hfe
    refine ⟨e, c, hentries, hcmem, rfl, hparent, hfe ▸ hdepth, fun d hd hsame => ?_⟩
    obtain ⟨j, hj⟩ := List.getElem?_of_mem hd
    obtain ⟨k, hk⟩ := List.getElem?_of_mem hcmem
    rw [hf.paths j k d c hj hk hsame, hk, Option.some.injEq] at hj
    exact hj.symm
  derived c hc id hparent := by
    have hpath : c.path ∈ queuedFrom setup vs id := by
      rw [← hchildren]
      exact List.mem_map_of_mem (Report.mem_children.2 ⟨hc, hparent⟩)
    obtain ⟨v, hv, hp⟩ := List.mem_flatMap.1 hpath
    split at hp
    · next hid =>
      rw [hqueued v hv] at hp
      obtain ⟨e, hentries, heid⟩ := (h.settled v hv).entry_of_created hp
      exact ⟨v, hv, e, hentries, heid.trans hid, hp⟩
    · cases hp
  complete := h

end RuleScan.Scan
