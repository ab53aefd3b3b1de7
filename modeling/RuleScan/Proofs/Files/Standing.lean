import Mathlib.Data.List.TakeWhile
import RuleScan.Proofs.Files.Fresh

/-!
# Output directories that are there

A file can be created under every name in a directory that is there, provided that nothing has
the name yet; and the names that an output directory hands out are free.  So creating a file in
an output directory can only fail if the directory is gone.

The path of an output directory need not be plain.  It may end in slashes, it may be the root,
and it may be empty, which stands for the directory that relative paths start from.  What all
of these have in common is that names behind the path are entries of one directory
(`FileSystem.Opens`).  Every way in which a directory is opened makes that true, and it remains
true while directories and links stay.

## Main results

* `components_dropTrailingSlashes` — slashes at the end do not change what a path means.
* `opens_createAll` — a directory that was made sure of is there.
* `OutputDir.opens_open?` — an output directory that was opened is there.
* `OutputDir.exists_create` — a file can be created in an output directory that is there.
-/

namespace RuleScan

namespace Path

open FileSystem

theorem components_append_slash {p : Path} (h : p ≠ "") : components (p ++ "/") = p.components := by
  have hsegments : (p ++ "/").segments = p.segments ++ [""] := by
    have hsplit := segments_append_slash p ""
    rw [String.append_empty] at hsplit
    exact hsplit
  have horigin : (p ++ "/").origin = p.origin := by
    apply origin_congr (isAbsolute_append h "/")
    rw [hsegments, List.head?_append, List.head?_eq_some_head (segments_ne_nil p)]
    rfl
  rw [components_eq, components_eq, horigin, steps, hsegments, List.filter_append]
  simp [steps, isIdle]

/-- The induction is on the slashes, the first of which is added to the path before them. -/
theorem components_append_slashes (slashes : List Char) (h : ∀ c ∈ slashes, c = '/')
    {cs : List Char} (hcs : cs ≠ []) :
    components (String.ofList (cs ++ slashes)) = components (String.ofList cs) := by
  induction slashes generalizing cs with
  | nil => rw [List.append_nil]
  | cons c rest ih =>
    obtain rfl : c = '/' := h c (List.mem_cons_self ..)
    have hne : String.ofList cs ≠ "" := by simpa using hcs
    have hslash : String.ofList (cs ++ ['/']) = String.ofList cs ++ "/" := by simp
    rw [List.append_cons, ih (fun c hc => h c (List.mem_cons_of_mem _ hc)) (by simp), hslash,
      components_append_slash hne]

theorem components_dropTrailingSlashes {p : Path} (h : dropTrailingSlashes p ≠ "") :
    (dropTrailingSlashes p).components = p.components := by
  have hslashes : ∀ c ∈ (p.toList.reverse.takeWhile (· == '/')).reverse, c = '/' := by
    intro c hc
    have hslash := List.mem_takeWhile_imp (List.mem_reverse.1 hc)
    simpa using hslash
  have hparts : p.toList = (p.toList.reverse.dropWhile (· == '/')).reverse ++
      (p.toList.reverse.takeWhile (· == '/')).reverse := by
    rw [← List.reverse_append, List.takeWhile_append_dropWhile, List.reverse_reverse]
  have hne : (p.toList.reverse.dropWhile (· == '/')).reverse ≠ [] := by
    intro hnil
    exact h (congrArg String.ofList hnil)
  have hsame := components_append_slashes _ hslashes hne
  rw [← hparts, String.ofList_toList] at hsame
  exact hsame.symm

end Path

namespace FileSystem

variable {fs fs' : FileSystem} {p : Path} {l : Location}

/-- Names behind the path are entries of a directory. -/
def Opens (fs : FileSystem) (p : Path) : Prop :=
  ∃ l, fs.node? l = some .directory ∧
    ∀ name, Path.IsName name → fs.Reaches false (p.join name) (l ++ [name])

namespace Opens

theorem guided (h : fs.Opens p) (hg : fs.Guides fs') : fs'.Opens p := by
  obtain ⟨l, hl, hnames⟩ := h
  exact ⟨l, hg.directory hl, fun name hname => (hnames name hname).guided_entry hg⟩

theorem of_reaches {last : Bool} (h : fs.Reaches last p l) (hl : fs.node? l = some .directory) :
    fs.Opens p :=
  ⟨l, hl, fun _ hname => h.join hl hname⟩

theorem of_isDirectory (htree : fs.IsTree) (h : fs.isDirectory p = true) : fs.Opens p := by
  unfold isDirectory at h
  split at h
  · next hnode =>
    obtain ⟨l, hreach, hl⟩ := (targetAt_ok_iff htree).1 hnode
    exact of_reaches hreach hl
  · cases h

/-- The empty path stands for the directory that relative paths start from. -/
theorem empty (htree : fs.IsTree) : fs.Opens "" := by
  refine ⟨fs.current, htree.current, fun name hname => ?_⟩
  have habs : Path.isAbsolute name = false := by
    simpa [Path.isAbsolute] using hname.head?
  have hjoin : Path.join "" name = name := by
    unfold Path.join
    rw [if_neg (by simpa using hname.head?)]
    exact String.empty_append
  have hstart : fs.startOf name = fs.current := by rw [startOf, habs, if_neg Bool.false_ne_true]
  rw [hjoin]
  refine ⟨0, Nat.zero_le _, hname.ne_empty, ?_⟩
  rw [hstart, Path.segments_of_whole hname.whole]
  exact leads_name fs fs.current hname.toIsStep

/-- What a path opens depends on its components only. -/
theorem respell {q : Path} (h : fs.Opens q) (hsame : q.components = p.components) :
    fs.Opens p := by
  obtain ⟨l, hl, hnames⟩ := h
  refine ⟨l, hl, fun name hname => ?_⟩
  apply (hnames name hname).respell (Path.isPlain_join q hname) (Path.isPlain_join p hname)
  rw [Path.components_join q hname, Path.components_join p hname, hsame]

end Opens

/-! ## Making sure of a directory -/

/-- The path of an entry, without slashes at its end, has the components of the path. -/
theorem components_entry (p : Path) :
    Path.components (if (dropTrailingSlashes p).isEmpty then p else dropTrailingSlashes p) =
      Path.components p := by
  split
  · rfl
  · next hne => exact Path.components_dropTrailingSlashes (by simpa using hne)

theorem opens_createDirectory (htree : fs.IsTree) (h : fs.createDirectory p = .ok fs') :
    fs'.IsTree ∧ fs'.Opens p := by
  obtain ⟨htree', hkeeps⟩ := keeps_createDirectory htree h
  refine ⟨htree', ?_⟩
  obtain ⟨r, hr, h⟩ := Expr.bind_eq_ok h
  obtain ⟨hreach, hnode⟩ := Reaches.of_resolve htree hr
  cases hn : r.node with
  | some node =>
    rw [hn] at h
    cases h
  | none =>
    rw [hn] at h hnode
    have hplace := hreach.isPlace htree (by simp [← hnode])
    obtain ⟨-, hdirectory⟩ := hplace.insert .directory
    cases h
    have hopens := Opens.of_reaches (hreach.guided_entry hkeeps.guides) hdirectory
    exact hopens.respell (components_entry p)

/-- The induction is on the budget; where a directory is missing, those above it come first. -/
theorem opens_createAll (htree : fs.IsTree) (budget : Nat) (p : Path)
    (h : fs.createAll budget p = (.ok (), fs')) : fs'.Opens p := by
  induction budget generalizing p fs' with
  | zero => cases h
  | succ budget ih =>
    unfold createAll at h
    split at h
    · next hempty =>
      cases h
      obtain rfl : p = "" := by simpa using hempty
      exact .empty htree
    split at h
    · next hcreate =>
      cases h
      exact (opens_createDirectory htree hcreate).2
    · split at h
      · cases h
      · next above _ =>
        obtain ⟨htree', -⟩ := keeps_createAll htree budget above
        split at h
        · cases h
        · next habove =>
          rw [habove] at htree'
          split at h
          · next hcreate =>
            cases h
            exact (opens_createDirectory htree' hcreate).2
          · split at h
            · next hdirectory =>
              cases h
              exact .of_isDirectory htree' hdirectory
            · cases h
    · split at h
      · next hdirectory =>
        cases h
        exact .of_isDirectory htree hdirectory
      · cases h

end FileSystem

namespace OutputDir

open FileSystem

variable {out : OutputDir} {fs fs' : FileSystem}

/-- An output directory that was opened is there. -/
theorem opens_open? {root : Path} (htree : fs.IsTree) (h : open? fs root = (.ok out, fs')) :
    fs'.IsTree ∧ fs'.Opens out.root := by
  unfold open? at h
  split at h
  · next files hensure =>
    cases h
    obtain ⟨htree', -⟩ := keeps_ensureDirectory htree root
    rw [hensure] at htree'
    exact ⟨htree', opens_createAll htree _ root hensure⟩
  · cases h

/-- A file can be created in an output directory that is there. -/
theorem exists_create (htree : fs.IsTree) (h : fs.Opens out.root) (suggestion : String) :
    ∃ p files, out.create fs suggestion = (.ok (p, files), (out.newName fs suggestion).2) := by
  obtain ⟨l, -, hnames⟩ := h
  obtain ⟨name, hname, hpath⟩ := out.newName_eq_join fs suggestion
  have hreach := hnames name hname
  rw [← hpath] at hreach
  have hfree := (isFree_iff.1 (isFree_newName htree out suggestion)).2
  have hnone : fs.node? (l ++ [name]) = none := by
    rw [← Option.not_isSome_iff_eq_none]
    intro hsome
    rw [(exists?_iff htree).2 ⟨_, hreach, hsome⟩] at hfree
    cases hfree
  have hcreate : fs.createFile (out.newName fs suggestion).1 =
      .ok (fs.insert (l ++ [name]) (.file [])) := by
    rw [createFile, hreach.resolve, hnone]
    rfl
  refine ⟨(out.newName fs suggestion).1, fs.insert (l ++ [name]) (.file []), ?_⟩
  unfold create
  dsimp only
  rw [hcreate]

end OutputDir

end RuleScan
