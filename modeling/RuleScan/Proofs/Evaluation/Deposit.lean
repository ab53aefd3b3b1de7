import RuleScan.Proofs.Evaluation.Attempts

/-!
# What evaluation puts into files

Of the attempts to create files, those matter to the file system after which a file was kept.
`Deposits` says of two sessions that the second follows from the first by files that were created
one after the other, and lists those that were kept with the bytes written into them.  It mentions
steps only and holds of every evaluation with the built-in operators, whatever its outcome.

What this means for the file system is `Gained`, which a tree of files makes true of every
`Deposits`: each file that was kept is there, with its bytes, at a location where there was
nothing, every file at another one; the paths that were created are those that were kept, in
order; and every node from before is what it was.

## Main results

* `Attempts.deposits` — the files that were kept in attempts are deposited.
* `Deposits.gained` — the files deposited in a tree are in place, and nothing else changed.
* `Gained.unborn` — a path that was deposited was, in no plain spelling, there before.
-/

namespace RuleScan

/--
From the first session to the second, files were created one after the other.  Listed are those
that were kept, each with the bytes that were written into it.
-/
inductive Deposits : Session → List (Path × Bytes) → Session → Prop
  | quiet {s t : Session} (houtput : t.output = s.output) (hfiles : t.files = s.files)
      (hcreated : t.effects.created = s.effects.created) : Deposits s [] t
  | refused {s t : Session} {name : String} {cause : Error}
      (hcreate : Step.create name s = .error cause t) : Deposits s [] t
  | kept {s t u : Session} {name : String} {p : Path} {bytes : Bytes}
      (hcreate : Step.create name s = .ok p t) (hwrite : Step.writeFile p bytes t = .ok () u) :
      Deposits s [(p, bytes)] u
  | discarded {s t u : Session} {name : String} {p : Path}
      (hcreate : Step.create name s = .ok p t) (hdiscard : Step.discard p t = .ok () u) :
      Deposits s [] u
  | append {s t u : Session} {W V : List (Path × Bytes)} (h : Deposits s W t)
      (h' : Deposits t V u) : Deposits s (W ++ V) u

/-- The attempts after which a file was kept are the deposits. -/
theorem Attempts.deposits {s t : Session} {A : List Attempt} (h : Attempts s A t) :
    Deposits s (A.filterMap Attempt.kept?) t := by
  induction h with
  | quiet houtput hfiles hcreated => exact .quiet houtput hfiles hcreated
  | refused _ _ hcreate => exact .refused hcreate
  | kept hcreate _ hwrite => exact .kept hcreate hwrite
  | failed hcreate _ hdiscard => exact .discarded hcreate hdiscard
  | append _ _ ih ih' =>
      rw [List.filterMap_append]
      exact ih.append ih'

/-- An evaluation with the built-in operators deposits files. -/
theorem Session.Recorded.deposits {s t : Session} (h : s.Recorded t) : ∃ W, Deposits s W t := by
  obtain ⟨calls, hcalls, hrecorded⟩ := h
  exact ⟨_, (hcalls.attempts hrecorded).deposits⟩

/-! ## Deposits in a tree -/

namespace Session

open FileSystem

/-- The files are a tree, and what was created is there. -/
structure Stocked (s : Session) : Prop where
  tree : s.files.IsTree
  created : ∀ p ∈ s.effects.created, p.IsPlain ∧ s.files.exists? p = true

/-- Between the two sessions these files were added in the output directory, each with its
bytes, and nothing else happened to the files. -/
structure Gained (s : Session) (W : List (Path × Bytes)) (t : Session) : Prop where
  stocked : t.Stocked
  keeps : s.files.Keeps t.files
  created : t.effects.created = s.effects.created ++ W.map Prod.fst
  root : t.output.map OutputDir.root = s.output.map OutputDir.root
  inside : ∀ d ∈ W, ∃ root name, s.output.map OutputDir.root = some root ∧ Path.IsName name ∧
    d.1 = root.join name
  held : ∀ d ∈ W, ∃ l, s.files.node? l = none ∧ t.files.Holds d.1 d.2 l
  apart : W.Pairwise fun d d' => ∀ l, t.files.Reaches false d.1 l → ¬ t.files.Reaches false d'.1 l

variable {s t u : Session} {W V : List (Path × Bytes)}

/-- Nothing was added. -/
theorem Gained.nothing (h : s.Stocked) (hfiles : s.files.Keeps t.files) (htree : t.files.IsTree)
    (hcreated : t.effects.created = s.effects.created)
    (hroot : t.output.map OutputDir.root = s.output.map OutputDir.root) : s.Gained [] t := by
  refine ⟨⟨htree, ?_⟩, hfiles, by simp [hcreated], hroot, nofun, nofun, .nil⟩
  rw [hcreated]
  exact fun p hp => ⟨(h.created p hp).1,
    exists?_keeps h.tree htree hfiles (h.created p hp).2⟩

/-- A path that was added was, in no plain spelling, the path of anything before. -/
theorem Gained.unborn (h : s.Gained W t) (hs : s.Stocked) {d : Path × Bytes} (hd : d ∈ W)
    {q : Path} (hq : q.IsPlain) (hex : s.files.exists? q = true) :
    q.components ≠ d.1.components := by
  obtain ⟨l, hnone, hheld⟩ := h.held d hd
  obtain ⟨root, name, -, hname, hpath⟩ := h.inside d hd
  exact hheld.reaches.components_ne hs.tree h.keeps.guides hnone
    (hpath ▸ Path.isPlain_join root hname) hq hex

theorem Gained.append (h : s.Gained W t) (h' : t.Gained V u) : s.Gained (W ++ V) u where
  stocked := h'.stocked
  keeps := h.keeps.trans h'.keeps
  created := by rw [h'.created, h.created, List.map_append, List.append_assoc]
  root := h'.root.trans h.root
  inside d hd := by
    rcases List.mem_append.1 hd with hd | hd
    · exact h.inside d hd
    · rw [← h.root]
      exact h'.inside d hd
  held d hd := by
    rcases List.mem_append.1 hd with hd | hd
    · obtain ⟨l, hnone, hheld⟩ := h.held d hd
      exact ⟨l, hnone, hheld.keeps h'.keeps⟩
    · obtain ⟨l, hnone, hheld⟩ := h'.held d hd
      refine ⟨l, ?_, hheld⟩
      cases hl : s.files.node? l with
      | none => rfl
      | some node =>
          rw [h.keeps.node hl] at hnone
          cases hnone
  apart := by
    refine List.pairwise_append.2 ⟨?_, h'.apart, ?_⟩
    · refine h.apart.imp_of_mem fun {d d'} hd hd' hapart l hl hl' => ?_
      obtain ⟨k, -, hheld⟩ := h.held d hd
      obtain ⟨k', -, hheld'⟩ := h.held d' hd'
      have hk : l = k := (hheld.keeps h'.keeps).reaches.unique hl
      have hk' : l = k' := (hheld'.keeps h'.keeps).reaches.unique hl'
      exact hapart l (hk ▸ hheld.reaches) (hk' ▸ hheld'.reaches)
    · intro d hd d' hd' l hl hl'
      obtain ⟨k, -, hheld⟩ := h.held d hd
      obtain ⟨k', hnone, hheld'⟩ := h'.held d' hd'
      have hk : l = k := (hheld.keeps h'.keeps).reaches.unique hl
      have hk' : l = k' := hheld'.reaches.unique hl'
      rw [← hk', hk, hheld.node] at hnone
      cases hnone

end Session

namespace Step

open FileSystem

variable {s t u : Session} {name : String} {p : Path}

/-- A file is created at a place where there was nothing. -/
theorem create_place (hs : s.Stocked) (h : Step.create name s = .ok p t) :
    p.IsPlain ∧ ∃ l, s.files.node? l = none ∧ s.files.IsPlace l ∧ s.files.Alters l t.files ∧
      t.files.Holds p [] l := by
  obtain ⟨hfile, -, -, root, n, -, hn, rfl⟩ := create_ok h
  obtain ⟨l, hreach, hnone, hplace, hfiles⟩ := createFile_ok hs.tree hfile
  obtain ⟨halters, hnode⟩ := hplace.insert (.file [])
  rw [← hfiles] at halters hnode
  exact ⟨Path.isPlain_join root hn, l, hnone, hplace, halters,
    hreach.guided_entry (halters.keeps hnone).guides, hnode⟩

/-- A file that was created takes the bytes that are written into it. -/
theorem kept_place {bytes : Bytes} (hs : s.Stocked) (h : Step.create name s = .ok p t)
    (hwrite : Step.writeFile p bytes t = .ok () u) :
    p.IsPlain ∧ u.effects = t.effects ∧ u.output = t.output ∧
      ∃ l, s.files.node? l = none ∧ s.files.IsPlace l ∧ s.files.Alters l u.files ∧
        u.files.Holds p bytes l := by
  obtain ⟨hplain, l, hnone, hplace, halters, hheld⟩ := create_place hs h
  have hplace' : t.files.IsPlace l := hplace.alters halters (by simp [hheld.node])
  obtain ⟨halters', hnode⟩ := hplace'.insert (.file bytes)
  unfold Step.writeFile at hwrite
  rw [writeFile_of_reaches (hheld.reaches.follow_last hheld.node) hheld.node] at hwrite
  cases hwrite
  exact ⟨hplain, rfl, rfl, l, hnone, hplace, halters.trans halters',
    hheld.reaches.guided_entry (halters'.guides hheld.node), hnode⟩

theorem gained_kept {bytes : Bytes} (hs : s.Stocked) (h : Step.create name s = .ok p t)
    (hwrite : Step.writeFile p bytes t = .ok () u) : s.Gained [(p, bytes)] u := by
  obtain ⟨hplain, heffects, houtput, l, hnone, hplace, halters, hheld⟩ := kept_place hs h hwrite
  obtain ⟨-, hcreated, hroot, hinside⟩ := create_ok h
  rw [← heffects] at hcreated
  have hkeeps := halters.keeps hnone
  have htree := hs.tree.alters hplace halters
  refine ⟨⟨htree, ?_⟩, hkeeps, hcreated, houtput ▸ hroot, ?_, ?_, List.pairwise_singleton _ _⟩
  · simp only [hcreated, List.forall_mem_append, List.forall_mem_singleton]
    exact ⟨fun q hq => ⟨(hs.created q hq).1,
      exists?_keeps hs.tree htree hkeeps (hs.created q hq).2⟩, hplain, hheld.exists? htree⟩
  · simpa using hinside
  · simpa using ⟨l, hnone, hheld⟩

/-- A file that was created and discarded is gone, and no other path is taken off the list. -/
theorem discarded_place (hs : s.Stocked) (h : Step.create name s = .ok p t)
    (hdiscard : Step.discard p t = .ok () u) :
    u.effects.created = s.effects.created ∧
      ∃ l, s.files.node? l = none ∧ s.files.IsPlace l ∧ s.files.Alters l u.files ∧
        u.files.node? l = none := by
  obtain ⟨hplain, l, hnone, hplace, halters, hheld⟩ := create_place hs h
  obtain ⟨-, hcreated, -, -⟩ := create_ok h
  have hplace' : t.files.IsPlace l := hplace.alters halters (by simp [hheld.node])
  obtain ⟨halters', hgone⟩ := hplace'.erase
  obtain ⟨hfiles, hfilter, -⟩ := discard_ok hdiscard
  rw [removeFile_of_reaches hplain hheld.reaches hheld.node] at hfiles
  refine ⟨?_, l, hnone, hplace, halters.trans (hfiles ▸ halters'), hfiles ▸ hgone⟩
  rw [hfilter, hcreated, List.filter_append, List.filter_eq_self.2]
  · simp [Path.same_refl]
  · intro q hq
    obtain ⟨hqplain, hex⟩ := hs.created q hq
    have hne : q.components ≠ p.components := hheld.reaches.components_ne hs.tree
      (halters.keeps hnone).guides hnone hplain hqplain hex
    simpa [← Path.same_iff] using hne

/-- A file that was created and discarded leaves no trace. -/
theorem gained_discarded (hs : s.Stocked) (h : Step.create name s = .ok p t)
    (hdiscard : Step.discard p t = .ok () u) : s.Gained [] u := by
  obtain ⟨hcreated, l, hnone, hplace, halters, -⟩ := discarded_place hs h hdiscard
  obtain ⟨-, -, hroot, -⟩ := create_ok h
  obtain ⟨-, -, houtput⟩ := discard_ok hdiscard
  exact .nothing hs (halters.keeps hnone) (hs.tree.alters hplace halters) hcreated
    (by rw [houtput, hroot])

end Step

/-- The induction is on how the files were deposited; each of them starts from a session in which
what was created before is there. -/
theorem Deposits.gained {s t : Session} {W : List (Path × Bytes)} (h : Deposits s W t)
    (hs : s.Stocked) : s.Gained W t := by
  induction h with
  | quiet houtput hfiles hcreated =>
      refine .nothing hs ?_ ?_ hcreated (by rw [houtput])
      · rw [hfiles]
        exact .refl _
      · rw [hfiles]
        exact hs.tree
  | refused hcreate =>
      obtain ⟨hfiles, hcreated, hroot⟩ := Step.create_error hcreate
      refine .nothing hs ?_ ?_ hcreated hroot
      · rw [hfiles]
        exact .refl _
      · rw [hfiles]
        exact hs.tree
  | kept hcreate hwrite => exact Step.gained_kept hs hcreate hwrite
  | discarded hcreate hdiscard => exact Step.gained_discarded hs hcreate hdiscard
  | append _ _ ih ih' =>
      have hmiddle := ih hs
      exact hmiddle.append (ih' hmiddle.stocked)

end RuleScan
