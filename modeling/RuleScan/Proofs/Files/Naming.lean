import RuleScan.Proofs.Files.Fresh
import Mathlib.Algebra.Order.Group.Nat

/-!
# The life of an output directory

Between two calls to an output directory anything may happen to the files: some are removed,
some are replaced by links, and the directory itself may go away.  What the output directory
remembers are the paths that it handed out, and it looks at the files again in every call.  A
`History` is a sequence of calls and of changes from outside, and what is said of a path is said
of the moment when it was handed out.

Every path in a history is the output directory with one more name.  The name consists of safe
characters, which take one byte each, so that its length is that of the suggestion, which is
cut, and of the number.  The number is the least one under which the suggestion is free, and it
is not above the number of paths and nodes together.  The program counts in a word of 64 bits,
so the length is bounded where that word is long enough to count the paths and the nodes.

## Main results

* `newName_leastFree` — the search stops, at the least number that is free.
* `Asked.spec` — what one call does, whether it names, creates a file or creates a directory.
* `History.isSound` — every path that was ever handed out was safe and free at its time, and no
  two of them are the same.
-/

namespace RuleScan

namespace Output

theorem utf8Size_of_isSafe {c : Char} (h : isSafe c = true) : c.utf8Size = 1 := by
  rw [Char.utf8Size_eq_one_iff, UInt32.le_iff_toNat_le]
  simp only [isSafe, Bool.or_eq_true, beq_iff_eq] at h
  rcases h with ((h | rfl) | rfl) | rfl
  · unfold Char.isAlphanum Char.isAlpha Char.isUpper Char.isLower Char.isDigit at h
    simp only [Bool.or_eq_true, Bool.and_eq_true, decide_eq_true_eq, UInt32.le_iff_toNat_le,
      ge_iff_le] at h
    have hupper : 'Z'.val.toNat = 90 := rfl
    have hlower : 'z'.val.toNat = 122 := rfl
    have hdigit : '9'.val.toNat = 57 := rfl
    have hlast : (127 : UInt32).toNat = 127 := rfl
    omega
  all_goals decide

/-- A harmless name has as many bytes as characters. -/
theorem IsHarmless.length_encode {name : String} (h : IsHarmless name.toList) :
    (Utf8.encode name).length = name.toList.length := by
  have hsafe := h.safe
  rw [Utf8.encode, Utf8.encodeChars]
  generalize name.toList = cs at hsafe
  induction cs with
  | nil => rfl
  | cons c rest ih =>
    obtain ⟨hc, hrest⟩ := List.forall_mem_cons.1 hsafe
    rw [List.flatMap_cons, List.length_append, ih hrest, String.length_utf8EncodeChar,
      utf8Size_of_isSafe hc, List.length_cons, Nat.add_comm]

/-- A number adds its digits and one character. -/
theorem length_numbered_le (name : String) {n k : Nat} (hk : 0 < k) (hn : n < 10 ^ k) :
    (numbered name n).toList.length ≤ name.toList.length + 1 + k := by
  by_cases hzero : n = 0
  · rw [numbered, if_pos hzero]
    omega
  · have hdigits := (Nat.length_toDigits_le_iff (by decide) hk).2 hn
    have hparts := length_splitExtension name.toList
    rw [toList_numbered name hzero]
    simp only [List.length_append, List.length_cons]
    omega

theorem isHarmless_sanitize (suggestion : String) : IsHarmless (sanitize suggestion).toList := by
  rw [sanitize, String.toList_ofList]
  exact isHarmless_sanitizeChars suggestion.toList

/-- With a number of 64 bits, no name is too long for a file system. -/
theorem length_encode_numbered_le (suggestion : String) {n : Nat} (hn : n < 2 ^ 64) :
    (Utf8.encode (numbered (sanitize suggestion) n)).length ≤ 221 := by
  have hname : (sanitize suggestion).toList.length ≤ nameLimit := by
    rw [sanitize, String.toList_ofList]
    exact length_sanitizeChars_le suggestion.toList
  have hnumber : n < 10 ^ 20 := Nat.lt_trans hn (by decide)
  calc (Utf8.encode (numbered (sanitize suggestion) n)).length
      = (numbered (sanitize suggestion) n).toList.length :=
        (isHarmless_numbered (isHarmless_sanitize suggestion) n).length_encode
    _ ≤ (sanitize suggestion).toList.length + 1 + 20 := length_numbered_le _ (by decide) hnumber
    _ ≤ 221 := by unfold nameLimit at hname; omega

end Output

namespace FileSystem

open RuleScan.Expr (bind_eq_ok)

variable {fs fs' : FileSystem} {p : Path}

theorem IsTree.removeFile (htree : fs.IsTree) (h : fs.removeFile p = .ok fs') : fs'.IsTree := by
  obtain ⟨r, hr, h⟩ := bind_eq_ok h
  obtain ⟨hreach, hnode⟩ := Reaches.of_resolve htree hr
  split at h
  · cases h
  · cases h
  · next node hdirectory hn =>
    have hplace : fs.IsPlace r.location := hreach.isPlace htree (by
      rw [← hnode, hn]
      exact fun heq => hdirectory (Option.some.inj heq))
    split at h
    · cases h
    · cases h
      exact htree.alters hplace hplace.erase.1

theorem IsTree.createLink {target : Path} (htree : fs.IsTree)
    (h : fs.createLink p target = .ok fs') : fs'.IsTree := by
  unfold FileSystem.createLink at h
  dsimp only at h
  split at h
  · cases h
  · obtain ⟨r, hr, h⟩ := bind_eq_ok h
    obtain ⟨hreach, hnode⟩ := Reaches.of_resolve htree hr
    split at h
    · cases h
    · next hn =>
      rw [hn] at hnode
      have hplace : fs.IsPlace r.location := hreach.isPlace htree (by rw [← hnode]; nofun)
      split at h
      · cases h
      · cases h
        exact (htree.insert hplace hnode.symm _).1

end FileSystem

namespace OutputDir

open Output FileSystem

variable {root p : Path} {out out' : OutputDir} {fs fs' : FileSystem} {suggestion : String}

/-! ## One call -/

/-- A number under which a name is free, and the least one. -/
structure IsLeastFree (out : OutputDir) (fs : FileSystem) (name : String) (n : Nat) : Prop where
  free : out.isFree fs (out.candidate name n) = true
  busy : ∀ m < n, out.isFree fs (out.candidate name m) = false

/-- The search passes over what is busy, and it stops early only at what is free. -/
theorem firstFree_spec (out : OutputDir) (fs : FileSystem) (name : String) (budget n : Nat) :
    ∃ k ≤ budget, out.firstFree fs name budget n = out.candidate name (n + k) ∧
      (∀ i < k, out.isFree fs (out.candidate name (n + i)) = false) ∧
      (k < budget → out.isFree fs (out.candidate name (n + k)) = true) := by
  induction budget generalizing n with
  | zero => exact ⟨0, Nat.le_refl 0, rfl, nofun, nofun⟩
  | succ budget ih =>
    unfold firstFree
    split
    · next hfree => exact ⟨0, Nat.zero_le _, rfl, nofun, fun _ => hfree⟩
    · next hbusy =>
      obtain ⟨k, hk, hpath, hpassed, hfree⟩ := ih (n + 1)
      have hshift : ∀ i, n + 1 + i = n + (i + 1) := by omega
      simp only [hshift] at hpath hpassed hfree
      refine ⟨k + 1, by omega, hpath, fun i hi => ?_, fun hlt => hfree (by omega)⟩
      cases i with
      | zero => simpa using hbusy
      | succ i => exact hpassed i (by omega)

/-- The search for a number ends, at the least one that makes the name free. -/
theorem newName_leastFree (htree : fs.IsTree) (out : OutputDir) (suggestion : String) :
    ∃ n ≤ out.taken.length + fs.nodes.size,
      (out.newName fs suggestion).1 = out.candidate (sanitize suggestion) n ∧
      out.IsLeastFree fs (sanitize suggestion) n := by
  obtain ⟨k, hk, hpath, hpassed, hfree⟩ :=
    out.firstFree_spec fs (sanitize suggestion) (out.taken.length + fs.nodes.size + 1) 0
  simp only [Nat.zero_add] at hpath hpassed hfree
  have hbudget := le_of_busy htree hpassed
  exact ⟨k, hbudget, hpath, hfree (by omega), hpassed⟩

/--
A call that asks for a path under a suggested name: what it returns, and the output directory
and the files that it leaves.
-/
inductive Asked (out : OutputDir) (fs : FileSystem) (suggestion : String) :
    Option Path → OutputDir → FileSystem → Prop
  | named {p : Path} {out' : OutputDir} (h : out.newName fs suggestion = (p, out')) :
      Asked out fs suggestion (some p) out' fs
  | created {p : Path} {out' : OutputDir} {fs' : FileSystem}
      (h : out.create fs suggestion = (.ok (p, fs'), out')) :
      Asked out fs suggestion (some p) out' fs'
  | notCreated {cause : Error} {out' : OutputDir}
      (h : out.create fs suggestion = (.error cause, out')) :
      Asked out fs suggestion none out' fs
  | made {p : Path} {out' : OutputDir} {fs' : FileSystem}
      (h : out.mkdir fs suggestion = (.ok (p, fs'), out')) :
      Asked out fs suggestion (some p) out' fs'
  | notMade {cause : Error} {out' : OutputDir}
      (h : out.mkdir fs suggestion = (.error cause, out')) :
      Asked out fs suggestion none out' fs

/-- A call reserves the path that it finds, and what it returns is that path. -/
theorem Asked.spec {returned : Option Path} (htree : fs.IsTree)
    (h : Asked out fs suggestion returned out' fs') :
    out' = (out.newName fs suggestion).2 ∧ fs'.IsTree ∧
      ∀ p ∈ returned, p = (out.newName fs suggestion).1 := by
  cases h with
  | named h =>
    rw [h]
    exact ⟨rfl, htree, by simp⟩
  | created h =>
    unfold create at h
    dsimp only at h
    split at h
    · next files hcreate =>
      cases h
      obtain ⟨l, -, hnone, hplace, rfl⟩ := createFile_ok htree hcreate
      exact ⟨rfl, (htree.insert hplace hnone _).1, by simp⟩
    · cases h
  | notCreated h =>
    unfold create at h
    dsimp only at h
    split at h
    · cases h
    · cases h
      exact ⟨rfl, htree, nofun⟩
  | made h =>
    unfold mkdir at h
    dsimp only at h
    split at h
    · next files hcreate =>
      cases h
      exact ⟨rfl, (keeps_createDirectory htree hcreate).1, by simp⟩
    · cases h
  | notMade h =>
    unfold mkdir at h
    dsimp only at h
    split at h
    · cases h
    · cases h
      exact ⟨rfl, htree, nofun⟩

/-! ## Any number of calls -/

/-- A path that was handed out, for which suggestion, and how things were at that moment. -/
structure Handout where
  path : Path
  suggestion : String
  before : OutputDir
  files : FileSystem

/--
An output directory in use, from the moment when nothing was handed out yet: calls, and in
between changes from outside, which can be any.  What was handed out is listed, the last first.
-/
inductive History (root : Path) : List Handout → OutputDir → FileSystem → Prop
  | opened {fs : FileSystem} (htree : fs.IsTree) : History root [] ⟨root, []⟩ fs
  | changed {handouts : List Handout} {out : OutputDir} {fs fs' : FileSystem}
      (h : History root handouts out fs) (htree : fs'.IsTree) : History root handouts out fs'
  | asked {handouts : List Handout} {out out' : OutputDir} {fs fs' : FileSystem}
      {suggestion : String} {returned : Option Path} (h : History root handouts out fs)
      (ha : Asked out fs suggestion returned out' fs') :
      History root ((returned.map (⟨·, suggestion, out, fs⟩)).toList ++ handouts) out' fs'

/-- A path that is safe, and was free when it was handed out. -/
structure Handout.IsSound (root : Path) (a : Handout) : Prop where
  /-- The path is the directory with one more name, which is harmless and, if words of 64 bits
  can count what there is, not too long. -/
  name : ∃ name, a.path = root.join name ∧
    a.path.components = root.components ++ [.name name] ∧ IsHarmless name.toList ∧
    (a.before.taken.length + a.files.nodes.size < 2 ^ 64 → (Utf8.encode name).length ≤ 221)
  /-- There was nothing at the path. -/
  vacant : a.files.exists? a.path = false
  /-- The search for a number had an end. -/
  number : ∃ n ≤ a.before.taken.length + a.files.nodes.size,
    a.path = a.before.candidate (sanitize a.suggestion) n ∧
    a.before.IsLeastFree a.files (sanitize a.suggestion) n

/-- What one call finds is safe and free. -/
theorem isSound_newName (htree : fs.IsTree) (hroot : out.root = root) (suggestion : String) :
    Handout.IsSound root ⟨(out.newName fs suggestion).1, suggestion, out, fs⟩ := by
  obtain ⟨n, hn, hpath, hleast⟩ := newName_leastFree htree out suggestion
  have hvacant := (isFree_iff.1 (isFree_newName htree out suggestion)).2
  have hharmless := isHarmless_numbered (isHarmless_sanitize suggestion) n
  refine ⟨⟨numbered (sanitize suggestion) n, ?_, ?_, hharmless, ?_⟩,
    hvacant, n, hn, hpath, hleast⟩
  · rw [hpath, candidate, hroot]
  · rw [hpath, components_candidate, hroot]
  · intro hsize
    exact length_encode_numbered_le suggestion (Nat.lt_of_le_of_lt hn hsize)

/-- What is true of an output directory all the time. -/
structure Handout.Invariant (root : Path) (handouts : List Handout) (out : OutputDir)
    (fs : FileSystem) : Prop where
  tree : fs.IsTree
  place : out.root = root
  sound : ∀ a ∈ handouts, a.IsSound root
  reserved : (handouts.map Handout.path).Sublist out.taken
  distinct : (out.taken.map Path.components).Nodup

/-- One call keeps it so: the path that it reserves is a new one, returned or not. -/
theorem Handout.Invariant.asked {handouts : List Handout} {returned : Option Path}
    (h : Handout.Invariant root handouts out fs) (ha : Asked out fs suggestion returned out' fs') :
    Handout.Invariant root ((returned.map (⟨·, suggestion, out, fs⟩)).toList ++ handouts)
      out' fs' := by
  obtain ⟨rfl, htree, hreturned⟩ := ha.spec h.tree
  have hdistinct : ((out.newName fs suggestion).2.taken.map Path.components).Nodup := by
    refine List.nodup_cons.2 ⟨?_, h.distinct⟩
    rw [List.mem_map]
    rintro ⟨q, hq, hsame⟩
    exact newName_ne_taken h.tree out suggestion hq hsame.symm
  cases returned with
  | none => exact ⟨htree, h.place, h.sound, h.reserved.cons _, hdistinct⟩
  | some p =>
    obtain rfl := hreturned p rfl
    refine ⟨htree, h.place, ?_, h.reserved.cons_cons _, hdistinct⟩
    exact List.forall_mem_cons.2 ⟨isSound_newName h.tree h.place suggestion, h.sound⟩

theorem History.invariant {handouts : List Handout} (h : History root handouts out fs) :
    Handout.Invariant root handouts out fs := by
  induction h with
  | opened htree => exact ⟨htree, rfl, nofun, .slnil, .nil⟩
  | changed _ htree ih => exact { ih with tree := htree }
  | asked _ ha ih => exact ih.asked ha

/-- A file that is removed is a change. -/
theorem History.removed {handouts : List Handout} (h : History root handouts out fs)
    (hremove : fs.removeFile p = .ok fs') : History root handouts out fs' :=
  h.changed (h.invariant.tree.removeFile hremove)

/-- A link that is created, in the place of a file or not, is a change. -/
theorem History.linked {handouts : List Handout} {target : Path}
    (h : History root handouts out fs) (hlink : fs.createLink p target = .ok fs') :
    History root handouts out fs' :=
  h.changed (h.invariant.tree.createLink hlink)

/--
**Output names are safe and fresh.**  Whatever is suggested, and whatever happens to the files
in between: every path that is returned is the output directory with one name of safe
characters that has no `.` in front and is no longer than a file system allows; nothing is there
at the moment, not even a link that leads nowhere; the number that makes it so was found; and
the path is none of those that were returned before.
-/
theorem History.isSound {handouts : List Handout} (h : History root handouts out fs) :
    (∀ a ∈ handouts, a.IsSound root) ∧
      (handouts.map fun a => a.path.components).Nodup := by
  refine ⟨h.invariant.sound, ?_⟩
  have hsub := h.invariant.reserved.map Path.components
  rw [List.map_map] at hsub
  exact h.invariant.distinct.sublist hsub

deriving instance DecidableEq for FileSystem, OutputDir

/-- A directory that is called `out` and holds nothing. -/
def emptyFiles : FileSystem := ⟨Table.ofList [(["out"], .directory)], []⟩

/-- The directory with a link that leads nowhere, under a name that has a number. -/
def linkedFiles : FileSystem := emptyFiles.insert ["out", "a_b_1.c"] (.link "gone")

/-- The name is reserved although the file is gone, and the next one although the link is dead. -/
theorem History.isSound_deadLink : ∃ handouts out fs,
    handouts.map Handout.path = ["out/a_b_2.c", "out/a_b.c"] ∧ History "out" handouts out fs ∧
      (∀ a ∈ handouts, a.IsSound "out") ∧
      (handouts.map fun a => a.path.components).Nodup := by
  have hopened : History "out" [] ⟨"out", []⟩ emptyFiles := .opened (by decide +kernel)
  have hcreate : OutputDir.create ⟨"out", []⟩ emptyFiles "a b.c" =
      (.ok ("out/a_b.c", emptyFiles.insert ["out", "a_b.c"] (.file [])),
        ⟨"out", ["out/a_b.c"]⟩) := by decide +kernel
  have hremove : (emptyFiles.insert ["out", "a_b.c"] (.file [])).removeFile "out/a_b.c" =
      .ok emptyFiles := by decide +kernel
  have hlink : emptyFiles.createLink "out/a_b_1.c" "gone" = .ok linkedFiles := by decide +kernel
  have hmkdir : OutputDir.mkdir ⟨"out", ["out/a_b.c"]⟩ linkedFiles "a b.c" =
      (.ok ("out/a_b_2.c", linkedFiles.insert ["out", "a_b_2.c"] .directory),
        ⟨"out", ["out/a_b_2.c", "out/a_b.c"]⟩) := by decide +kernel
  have hlinked := ((hopened.asked (.created hcreate)).removed hremove).linked hlink
  have hmade := hlinked.asked (.made hmkdir)
  exact ⟨_, _, _, rfl, hmade, hmade.isSound⟩

end OutputDir

end RuleScan
