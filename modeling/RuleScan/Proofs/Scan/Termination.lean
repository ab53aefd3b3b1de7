import RuleScan.Proofs.Scan.Keeping
import Mathlib.Algebra.Order.BigOperators.Group.List
import Mathlib.Algebra.Order.Group.Nat
import Mathlib.Order.RelClasses

/-!
# Scans come to an end

The list of paths grows while it is worked off, and so do the files.  A scan ends all the same
if links are not followed and the operators are the built-in ones.  What a rule creates lies one
level deeper than the file it was created from, and too deep a file is not evaluated.  What is
found in a directory has the depth of the directory, but it lies one name further from the
root, and directories lie only so far from it: neither a deposit nor a reference is one.

So each path has a rank: the levels that are left for it, and among paths with the same number
of them, how much further from the root a directory can lie (`Item.HasRank`).  What takes the
place of a path has smaller ranks, and a rank stays what it is while directories and links stay.
By induction on the rank, a path and everything that comes out of it is worked off, or the scan
is aborted (`Drains`).

## Main results

* `houses_closeSession`, `houses_commitDuplicate` — a scan makes no directories.
* `Steady.hasRank_of_visit` — the rank falls.
* `Steady.drains` — a path and all that comes out of it is worked off.
* `scanWithin_terminates` — a scan ends, and a larger budget changes nothing.
-/

namespace RuleScan

open RuleScan.Expr (bind_eq_ok)

/-! ## Directories are not made -/

namespace FileSystem

variable {fs fs' fs'' : FileSystem} {p : Path}

/-- Every directory of the later file system was a directory before. -/
def Houses (fs fs' : FileSystem) : Prop :=
  ∀ loc, fs'.node? loc = some .directory → fs.node? loc = some .directory

theorem Houses.refl (fs : FileSystem) : fs.Houses fs := fun _ hloc => hloc

theorem Houses.trans (h : fs.Houses fs') (h' : fs'.Houses fs'') : fs.Houses fs'' :=
  fun loc hloc => h loc (h' loc hloc)

theorem houses_insert (fs : FileSystem) (loc : Location) {node : Node} (hnode : node ≠ .directory) :
    fs.Houses (fs.insert loc node) := by
  intro other hother
  by_cases hloc : loc = []
  · by_cases hroot : other = []
    · rw [hroot, node?_root]
    · simpa [node?, insert, Table.get?_insert, hloc, hroot] using hother
  · rw [node?_insert fs hloc] at hother
    split at hother
    · exact absurd (Option.some.inj hother) hnode
    · exact hother

theorem houses_erase (fs : FileSystem) (loc : Location) : fs.Houses (fs.erase loc) := by
  intro other hother
  by_cases hroot : other = []
  · rw [hroot, node?_root]
  · simp only [node?, erase, if_neg hroot, Table.get?_erase] at hother ⊢
    split at hother
    · cases hother
    · exact hother

theorem houses_createFile (h : fs.createFile p = .ok fs') : fs.Houses fs' := by
  obtain ⟨r, -, h⟩ := bind_eq_ok h
  split at h
  · cases h
  · cases h
    exact fs.houses_insert r.location (by simp)

theorem houses_writeFile {content : Bytes} (h : fs.writeFile p content = .ok fs') :
    fs.Houses fs' := by
  obtain ⟨r, -, h⟩ := bind_eq_ok h
  split at h
  · cases h
  · cases h
    exact .refl fs
  · cases h
    exact fs.houses_insert r.location (by simp)

theorem houses_removeFile (h : fs.removeFile p = .ok fs') : fs.Houses fs' := by
  obtain ⟨r, -, h⟩ := bind_eq_ok h
  split at h
  · cases h
  · cases h
  · split at h
    · cases h
    · cases h
      exact fs.houses_erase r.location

theorem houses_createLink {target : Path} (h : fs.createLink p target = .ok fs') :
    fs.Houses fs' := by
  cases htarget : target.isEmpty with
  | true => simp [createLink, htarget, bind, Except.bind] at h
  | false =>
      simp only [createLink, htarget, Bool.false_eq_true, if_false] at h
      obtain ⟨r, -, h⟩ := bind_eq_ok h
      cases hnode : r.node with
      | some node =>
          rw [hnode] at h
          cases h
      | none =>
          rw [hnode] at h
          dsimp only at h
          split at h
          · cases h
          · cases h
            exact fs.houses_insert r.location (by simp)

theorem houses_createReference {references : References} {target : Path}
    (h : references.create fs p target = .ok fs') : fs.Houses fs' := by
  unfold References.create at h
  split at h
  · cases h
  · split at h
    · exact houses_createLink h
    · exact houses_writeFile h

/-- Whether or not the reference can be made. -/
theorem houses_replaceWithReference (out : OutputDir) (fs : FileSystem) (p earlier : Path)
    (references : References) :
    fs.Houses (out.replaceWithReference fs p earlier references).2 := by
  unfold OutputDir.replaceWithReference
  split
  · exact .refl fs
  split
  · exact .refl fs
  · next fs' hremove =>
    dsimp only
    split
    · exact houses_removeFile hremove
    · next hcreate => exact (houses_removeFile hremove).trans (houses_createReference hcreate)

/-- No directory has more names on the way from the root to it. -/
def IsLow (height : Nat) (fs : FileSystem) : Prop :=
  ∀ loc, fs.node? loc = some .directory → loc.length ≤ height

theorem IsLow.houses {height : Nat} (h : fs.IsLow height) (hh : fs.Houses fs') :
    fs'.IsLow height :=
  fun loc hloc => h loc (hh loc hloc)

/-- There are only so many directories, so one of them lies furthest from the root. -/
theorem exists_isLow (fs : FileSystem) : ∃ height, fs.IsLow height := by
  refine ⟨(fs.nodes.keys.map List.length).sum, fun loc hloc => ?_⟩
  by_cases hroot : loc = []
  · simp [hroot]
  · have hkey : loc ∈ fs.nodes.keys := (isSome_node?_iff hroot).1 (by simp [hloc])
    exact List.single_le_sum (fun _ _ => Nat.zero_le _) _ (List.mem_map_of_mem hkey)

end FileSystem

open FileSystem

/-- Files that are deposited are no directories. -/
theorem Deposits.houses {s t : Session} {W : List (Path × Bytes)} (h : Deposits s W t) :
    s.files.Houses t.files := by
  induction h with
  | quiet _ hfiles _ =>
      rw [hfiles]
      exact .refl _
  | refused hcreate =>
      rw [(Step.create_error hcreate).1]
      exact .refl _
  | @kept s t u name p bytes hcreate hwrite =>
      refine (houses_createFile (Step.create_ok hcreate).1).trans ?_
      unfold Step.writeFile at hwrite
      split at hwrite
      · next hfiles =>
        cases hwrite
        exact houses_writeFile hfiles
      · cases hwrite
  | @discarded s t u name p hcreate hdiscard =>
      refine (houses_createFile (Step.create_ok hcreate).1).trans ?_
      rw [(Step.discard_ok hdiscard).1]
      cases hremove : t.files.removeFile p with
      | error cause => exact .refl _
      | ok fs => exact houses_removeFile hremove
  | append _ _ ih ih' => exact ih.trans ih'

namespace Scan

theorem houses_closeSession {setup : Setup} (hops : setup.env.operators = .builtins)
    (s : Session) : s.files.Houses (closeSession setup s).files := by
  obtain ⟨W, hdeposits⟩ := (recorded_closeSession hops s).deposits
  exact hdeposits.houses

theorem houses_commitDuplicate (references : References) (st : State) (e earlier : Entry) :
    st.files.Houses (commitDuplicate references st e earlier).files := by
  unfold commitDuplicate
  dsimp only
  split
  · exact .refl _
  · next out _ =>
    split
    · have hhouses := houses_replaceWithReference out st.files e.path earlier.path references
      split
      · next files hreplace =>
        rw [hreplace] at hhouses
        exact hhouses
      · next cause files hreplace =>
        rw [hreplace] at hhouses
        exact hhouses
    · exact .refl _

section

variable {setup : Setup} {st st' : State} {item : Item}

/-- However a path is dealt with, no directory comes into being. -/
theorem houses_visit (hops : setup.env.operators = .builtins)
    (h : visit setup st item = (st', none)) : st.files.Houses st'.files := by
  have hvisited := visited_of_visit h
  generalize Visit.evaluation? setup ⟨st, item⟩ = sessions at hvisited
  cases hvisited with
  | failed size cause => exact .refl _
  | warned message hlook => exact .refl _
  | expanded names faults hlook =>
      rw [(State.files_enqueueAll _ item.parent item.depth (names.map item.path.join)).1]
      exact .refl _
  | duplicate size content earlier hlook hread hold => exact houses_commitDuplicate _ _ _ _
  | evaluated size content s t events e ms hlook hread hnew hs ht he =>
      rw [(State.files_enqueueAll _ _ _ _).1, ht]
      subst hs
      exact houses_closeSession hops (openSession setup st item size content)

/-! ## The rank of a path -/

/--
The levels left for a path, and how much further from the root than the path a directory may
lie.  A path that leads nowhere so far is taken for the root.
-/
structure Item.HasRank (maxDepth height : Nat) (fs : FileSystem) (item : Item)
    (rank : Nat × Nat) : Prop where
  levels : maxDepth < item.depth + rank.1
  reach : height < rank.2 ∨ ∃ l, fs.Reaches false item.path l ∧ height < l.length + rank.2

/-- The order of ranks. -/
abbrev Falls : Nat × Nat → Nat × Nat → Prop := Prod.Lex (· < ·) (· < ·)

theorem wellFounded_falls : WellFounded Falls :=
  WellFounded.prod_lex Nat.lt_wfRel.wf Nat.lt_wfRel.wf

variable {maxDepth height : Nat} {fs fs' : FileSystem} {rank : Nat × Nat}

/-- A path leads where it led while directories and links stay. -/
theorem Item.HasRank.guided (h : item.HasRank maxDepth height fs rank) (hg : fs.Guides fs') :
    item.HasRank maxDepth height fs' rank := by
  refine ⟨h.levels, h.reach.imp_right ?_⟩
  rintro ⟨l, hreach, hl⟩
  exact ⟨l, hreach.guided_entry hg, hl⟩

/-- For a directory, the names on the way to it count. -/
theorem Item.HasRank.reach_directory (h : item.HasRank maxDepth height fs rank) {l : Location}
    (hreach : fs.Reaches false item.path l) : height < l.length + rank.2 := by
  rcases h.reach with hlow | ⟨k, hk, hlow⟩
  · omega
  · rwa [hk.unique hreach]

/-- What is evaluated is not too deep. -/
theorem depth_le_of_evaluation? {s t : Session}
    (h : Visit.evaluation? setup ⟨st, item⟩ = some (s, t)) :
    item.depth ≤ setup.config.maxDepth := by
  by_contra hdeep
  rw [Nat.not_le] at hdeep
  unfold Visit.evaluation? at h
  dsimp only at h
  split at h
  · rw [if_pos hdeep] at h
    cases h
  · cases h

/-- Where no links are followed, a directory is what a path itself leads to. -/
theorem nodeAt_of_look (hlinks : setup.config.followLinks = false) {names faults : List String}
    (h : look setup fs item.path = .directory names faults) :
    fs.nodeAt item.path = .ok .directory := by
  unfold look at h
  split at h
  · cases h
  · rw [hlinks] at h
    cases h
  · next hnode =>
    obtain ⟨rfl, -⟩ := Finding.ofNode_directory h
    exact hnode

/-- A name in a directory lies one name further from the root. -/
theorem Item.HasRank.join (h : item.HasRank maxDepth height fs rank) (htree : fs.IsTree)
    (hlow : fs.IsLow height) (hlinks : setup.config.followLinks = false)
    {names faults : List String} (hlook : look setup fs item.path = .directory names faults)
    {name : String} (hname : name ∈ names) :
    ∃ next, Falls next rank ∧
      (⟨item.path.join name, item.parent, item.depth⟩ : Item).HasRank maxDepth height fs next := by
  obtain ⟨l, hreach, hl⟩ := (nodeAt_ok_iff htree).1 (nodeAt_of_look hlinks hlook)
  obtain ⟨hisName, -⟩ := look_directory htree hlook hname
  have hheight : l.length ≤ height := hlow l hl
  have hreaches := h.reach_directory hreach
  obtain ⟨levels, reach⟩ := rank
  cases reach with
  | zero =>
      have : height < l.length + 0 := hreaches
      omega
  | succ reach =>
      refine ⟨(levels, reach), .right _ (Nat.lt_succ_self reach), h.levels, .inr ?_⟩
      refine ⟨l ++ [name], hreach.join hl hisName, ?_⟩
      have : height < l.length + (reach + 1) := hreaches
      simp only [List.length_append, List.length_singleton]
      omega

/-- A file that comes out of another one has one level less. -/
theorem Item.HasRank.deeper (h : item.HasRank maxDepth height fs rank)
    (hdepth : item.depth ≤ maxDepth) (p : Path) (parent : Option FileId) :
    ∃ next, Falls next rank ∧
      (⟨p, parent, item.depth + 1⟩ : Item).HasRank maxDepth height fs' next := by
  obtain ⟨levels, reach⟩ := rank
  have hlevels : maxDepth < item.depth + levels := h.levels
  cases levels with
  | zero => omega
  | succ levels =>
      refine ⟨(levels, height + 1), .left _ _ (Nat.lt_succ_self levels), ?_, .inl ?_⟩
      · show maxDepth < item.depth + 1 + levels
        omega
      · exact Nat.lt_succ_self height

end

/-! ## What every visit preserves -/

/-- The files are a tree, and its directories do not lie further from the root than that. -/
structure Steady (setup : Setup) (origin : FileSystem) (height : Nat) (st : State) : Prop where
  kept : ∃ past, Kept setup origin past st
  low : st.files.IsLow height

section

variable {setup : Setup} {origin : FileSystem} {height : Nat} {st st' : State} {item : Item}
  {items rest : List Item} {rank : Nat × Nat}

theorem Steady.tree (h : Steady setup origin height st) : st.files.IsTree := by
  obtain ⟨past, hkept⟩ := h.kept
  exact hkept.tree

theorem Steady.visit (h : Steady setup origin height st)
    (hops : setup.env.operators = .builtins) (hw : st.waiting = item :: rest)
    (hvisit : Scan.visit setup { st with waiting := rest } item = (st', none)) :
    Steady setup origin height st' ∧ st.files.Guides st'.files := by
  obtain ⟨past, hkept⟩ := h.kept
  have hnext := hkept.visit hops hw hvisit
  have hguides := hnext.guides ⟨{ st with waiting := rest }, item⟩ (by simp)
  have hhouses : ({ st with waiting := rest } : State).files.Houses st'.files :=
    houses_visit hops hvisit
  exact ⟨⟨⟨_, hnext⟩, h.low.houses hhouses⟩, hguides⟩

/-- The paths that take the place of one that was visited have smaller ranks. -/
theorem Steady.hasRank_of_visit (h : Steady setup origin height st)
    (hlinks : setup.config.followLinks = false)
    (hrank : item.HasRank setup.config.maxDepth height st.files rank)
    (hvisit : Scan.visit setup { st with waiting := rest } item = (st', none))
    (hguides : st.files.Guides st'.files) :
    ∃ new, st'.waiting = new ++ rest ∧ ∀ i ∈ new, ∃ next, Falls next rank ∧
      i.HasRank setup.config.maxDepth height st'.files next := by
  have hvisited := visited_of_visit hvisit
  generalize hev : Visit.evaluation? setup ⟨{ st with waiting := rest }, item⟩ = sessions
    at hvisited
  cases hvisited with
  | failed size cause => exact ⟨[], rfl, nofun⟩
  | warned message hlook => exact ⟨[], rfl, nofun⟩
  | duplicate size content earlier hlook hread hold =>
      obtain ⟨files, e, heq, -⟩ :=
        commitDuplicate_eq setup.system.references { st with waiting := rest }
          (({ st with waiting := rest } : State).readEntryFor item size content) earlier
      rw [heq]
      exact ⟨[], rfl, nofun⟩
  | expanded names faults hlook =>
      obtain ⟨ps, hps, hwaiting⟩ := State.exists_waiting_enqueueAll
        (({ st with waiting := rest } : State).warnAll faults) item.parent item.depth
        (names.map item.path.join)
      refine ⟨_, hwaiting, fun i hi => ?_⟩
      obtain ⟨p, hp, rfl⟩ := List.mem_map.1 hi
      obtain ⟨name, hname, rfl⟩ := List.mem_map.1 (hps.subset hp)
      obtain ⟨next, hfalls, hnext⟩ := hrank.join h.tree h.low hlinks hlook hname
      exact ⟨next, hfalls, hnext.guided hguides⟩
  | evaluated size content s t events e ms hlook hread hnew hs ht he =>
      have hdepth : item.depth ≤ setup.config.maxDepth := depth_le_of_evaluation? hev
      have hedepth : e.depth = item.depth := by rw [he]; rfl
      obtain ⟨ps, -, hwaiting⟩ := State.exists_waiting_enqueueAll
        (({ st with waiting := rest, files := t.files, output := t.output, events } : State).commit
          e) (some e.id) (e.depth + 1) t.effects.created
      refine ⟨_, hwaiting, fun i hi => ?_⟩
      obtain ⟨p, -, rfl⟩ := List.mem_map.1 hi
      rw [hedepth]
      exact hrank.deeper hdepth p (some e.id)

/-! ## Working off the list -/

/-- A scan works off what is in front of the rest of the list, unless a visit ends it before. -/
inductive Drains (setup : Setup) (origin : FileSystem) (height : Nat) (st : State)
    (rest : List Item) : Prop
  | emptied {vs : List Visit} {last : State} (h : Works setup st vs last)
      (hwaiting : last.waiting = rest) (hsteady : Steady setup origin height last)
      (hguides : st.files.Guides last.files)
  | aborted {vs : List Visit} {last st' : State} {item : Item} {others : List Item}
      {cause : Error} (h : Works setup st vs last) (hwaiting : last.waiting = item :: others)
      (hvisit : visit setup { last with waiting := others } item = (st', some cause))

theorem Works.trans {vs vs' : List Visit} {last : State} (h : Works setup st vs st')
    (h' : Works setup st' vs' last) : Works setup st (vs ++ vs') last := by
  induction h with
  | rest st => exact h'
  | go hwaiting hvisit _ ih => exact .go hwaiting hvisit (ih h')

/-- One more visit in front. -/
theorem Drains.go (hw : st.waiting = item :: items)
    (hvisit : Scan.visit setup { st with waiting := items } item = (st', none))
    (hguides : st.files.Guides st'.files) (h : Drains setup origin height st' rest) :
    Drains setup origin height st rest := by
  cases h with
  | aborted h hwaiting hnext => exact .aborted (.go hw hvisit h) hwaiting hnext
  | emptied h hwaiting hsteady hguides' =>
      exact .emptied (.go hw hvisit h) hwaiting hsteady (hguides.trans hguides')

/-- First one part of the list, then another. -/
theorem Drains.andThen {middle : List Item} (h : Drains setup origin height st middle)
    (h' : ∀ last : State, last.waiting = middle → Steady setup origin height last →
      st.files.Guides last.files → Drains setup origin height last rest) :
    Drains setup origin height st rest := by
  cases h with
  | aborted h hwaiting hvisit => exact .aborted h hwaiting hvisit
  | emptied h hwaiting hsteady hguides =>
      cases h' _ hwaiting hsteady hguides with
      | aborted hnext hwaiting' hvisit => exact .aborted (h.trans hnext) hwaiting' hvisit
      | emptied hnext hwaiting' hsteady' hguides' =>
          exact .emptied (h.trans hnext) hwaiting' hsteady' (hguides.trans hguides')

/-- If each of some paths is worked off, with what comes out of it, all of them are. -/
theorem Steady.drains_all {P : FileSystem → Item → Prop}
    (hstays : ∀ fs fs' item, fs.Guides fs' → P fs item → P fs' item)
    (hone : ∀ st item rest, Steady setup origin height st → st.waiting = item :: rest →
      P st.files item → Drains setup origin height st rest)
    (h : Steady setup origin height st) (hw : st.waiting = items ++ rest)
    (hitems : ∀ i ∈ items, P st.files i) : Drains setup origin height st rest := by
  induction items generalizing st with
  | nil => exact .emptied (.rest st) hw h (FileSystem.Keeps.refl st.files).guides
  | cons item items ih =>
      have hfirst := hone st item (items ++ rest) h hw (hitems item (by simp))
      refine hfirst.andThen fun last hwaiting hsteady hguides => ih hsteady hwaiting ?_
      exact fun i hi => hstays _ _ i hguides (hitems i (by simp [hi]))

/-- A path is worked off, with everything that comes out of it.  The induction is on its rank. -/
theorem Steady.drains (hops : setup.env.operators = .builtins)
    (hlinks : setup.config.followLinks = false) (h : Steady setup origin height st)
    (hw : st.waiting = item :: rest)
    (hrank : item.HasRank setup.config.maxDepth height st.files rank) :
    Drains setup origin height st rest := by
  induction rank using wellFounded_falls.induction generalizing st item rest with
  | _ rank ih =>
  cases hvisit : Scan.visit setup { st with waiting := rest } item with
  | mk st' outcome =>
  cases outcome with
  | some cause => exact .aborted (.rest st) hw hvisit
  | none =>
      obtain ⟨hsteady, hguides⟩ := h.visit hops hw hvisit
      obtain ⟨new, hwaiting, hnew⟩ := h.hasRank_of_visit hlinks hrank hvisit hguides
      refine Drains.go hw hvisit hguides (hsteady.drains_all (P := fun fs i =>
        ∃ next, Falls next rank ∧ i.HasRank setup.config.maxDepth height fs next)
        ?_ ?_ hwaiting hnew)
      · rintro fs fs' i hguides ⟨next, hfalls, hnext⟩
        exact ⟨next, hfalls, hnext.guided hguides⟩
      · rintro st i others hst hothers ⟨next, hfalls, hnext⟩
        exact ih next hfalls hst hothers hnext

end

/-! ## The budget -/

section

variable {setup : Setup} {st last : State} {vs : List Visit}

/-- A budget that is larger by the number of visits. -/
theorem Works.run_add (h : Works setup st vs last) (budget : Nat) :
    run setup (vs.length + budget) st = run setup budget last ∧
      visits setup (vs.length + budget) st = vs ++ visits setup budget last := by
  induction h with
  | rest st => simp
  | go hwaiting hvisit _ ih =>
      rw [List.length_cons, Nat.add_right_comm]
      simp only [run, visits, hwaiting, hvisit, ih, List.cons_append, and_self]

/-- A list that is worked off within some budget takes no larger one. -/
theorem Drains.terminates {origin : FileSystem} {height : Nat}
    (h : Drains setup origin height st []) :
    ∃ pops result, result.outcome ≠ .exhausted ∧ ∀ budget, pops < budget →
      run setup budget st = result ∧ (visits setup budget st).length = pops := by
  cases h with
  | @emptied vs last h hwaiting _ _ =>
      refine ⟨vs.length, ⟨.finished last.report, last.files, last.events⟩, nofun, ?_⟩
      intro budget hbudget
      obtain ⟨more, rfl⟩ := Nat.exists_eq_add_of_lt hbudget
      obtain ⟨hrun, hvisits⟩ := h.run_add (more + 1)
      rw [Nat.add_assoc, hrun, hvisits, run_done setup more hwaiting]
      simp [visits, hwaiting]
  | @aborted vs last st' item others cause h hwaiting hvisit =>
      refine ⟨vs.length + 1, ⟨.aborted cause, st'.files, st'.events⟩, nofun, ?_⟩
      intro budget hbudget
      obtain ⟨more, rfl⟩ := Nat.exists_eq_add_of_lt hbudget
      obtain ⟨hrun, hvisits⟩ := h.run_add (more + 2)
      rw [show vs.length + 1 + more + 1 = vs.length + (more + 2) by omega, hrun, hvisits]
      simp [run, visits, hwaiting, hvisit]

end

/--
**Scans terminate.**  Whatever the files, as long as they form a tree, the rules with the
built-in operators, the inputs and the depth limit: if links are not followed, there is a number
of paths after which nothing is left to be visited, or the scan has failed.  With any larger
budget the scan visits just as many paths and ends in the same way.
-/
theorem scanWithin_terminates (setup : Setup) (hops : setup.env.operators = .builtins)
    (hlinks : setup.config.followLinks = false) (files : FileSystem) (htree : files.IsTree)
    (inputs : List Path) :
    ∃ pops result, result.outcome ≠ .exhausted ∧ ∀ budget, pops < budget →
      scanWithin budget setup files inputs = result ∧
        (visitsWithin budget setup files inputs).length = pops := by
  obtain ⟨htree', hkeeps⟩ := keeps_openOutput setup.config htree
  unfold visitsWithin scanWithin
  cases hopen : openOutput setup.config files with
  | mk output files' =>
  rw [hopen] at htree' hkeeps
  cases output with
  | error cause => exact ⟨0, ⟨.aborted cause, files', []⟩, nofun, fun _ _ => ⟨rfl, rfl⟩⟩
  | ok output =>
      obtain ⟨height, hlow⟩ := files'.exists_isLow
      obtain ⟨ps, -, hwaiting⟩ :=
        State.exists_waiting_enqueueAll (State.start files' output) none 0 inputs
      have hfiles := (State.files_enqueueAll (State.start files' output) none 0 inputs).1
      have hsteady : Steady setup files height
          ((State.start files' output).enqueueAll none 0 inputs) :=
        ⟨⟨[], .start setup htree' hkeeps output inputs⟩, hfiles ▸ hlow⟩
      refine (hsteady.drains_all (P := fun fs item =>
        ∃ rank, item.HasRank setup.config.maxDepth height fs rank) ?_ ?_ hwaiting ?_).terminates
      · rintro fs fs' item hguides ⟨rank, hrank⟩
        exact ⟨rank, hrank.guided hguides⟩
      · rintro st item rest hst hw ⟨rank, hrank⟩
        exact hst.drains hops hlinks hw hrank
      · intro item hitem
        obtain ⟨p, -, rfl⟩ := List.mem_map.1 hitem
        exact ⟨(setup.config.maxDepth + 1, height + 1), by simp, .inl (Nat.lt_succ_self height)⟩

/-- A scan that extracts files three levels deep, into a directory inside an input. -/
def nestedSetup : Setup :=
  { writingSetup with config := { maxDepth := 3, output := some "d/out" } }

/-- The first file that is visited makes the next one, below a directory that is yet to come. -/
theorem scanWithin_terminates_nested :
    (visitsWithin 2 nestedSetup
        ⟨Table.ofList [(["d"], .directory), (["d", "a"], .file [7])], []⟩ ["d/a", "d"]).map
        (fun v => (v.item.path, v.item.depth)) = [("d/a", 0), ("d/out/x", 1)] ∧
      ∃ pops result, result.outcome ≠ .exhausted ∧ ∀ budget, pops < budget →
        scanWithin budget nestedSetup
            ⟨Table.ofList [(["d"], .directory), (["d", "a"], .file [7])], []⟩ ["d/a", "d"] =
          result ∧
        (visitsWithin budget nestedSetup
            ⟨Table.ofList [(["d"], .directory), (["d", "a"], .file [7])], []⟩
            ["d/a", "d"]).length = pops :=
  ⟨by decide +kernel, scanWithin_terminates nestedSetup rfl rfl _ (by decide) ["d/a", "d"]⟩

end Scan

end RuleScan
