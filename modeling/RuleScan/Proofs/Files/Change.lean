import RuleScan.Expr.Fold
import RuleScan.Proofs.Files.Walk

/-!
# Reading and changing files

What the operations on files do, said of locations.  Reading finds the node at the location
that a path reaches.  An operation that creates something puts one node where there was none,
in a directory; the others replace or remove one file.  So each of them alters a tree at one
place, and it is enough to know where the path leads.

## Main results

* `exists?_iff`, `readFile_of_reaches` — reading.
* `Reaches.components_ne` — what is new is nothing old in another spelling.
* `Holds.keeps` — a file stays where its path leads while every node stays.
* `createFile_ok`, `createDirectory_ok` — what is created was not there before.
* `writeFile_of_reaches`, `removeFile_of_reaches`, `createLink_of_reaches` — the effect of the
  other operations at a path that leads to a file, or to nothing.
* `keeps_ensureDirectory` — making sure that there is a directory leaves everything else.
-/

namespace RuleScan.FileSystem

open RuleScan.Expr (bind_eq_ok)

variable {fs fs' : FileSystem} {last : Bool} {p q : Path} {l : Location}

/-- A path leads to a location, by way of no more links than may be replaced. -/
def Reaches (fs : FileSystem) (last : Bool) (p : Path) (l : Location) : Prop :=
  ∃ k ≤ linkLimit, fs.LeadsTo last k p l

namespace Reaches

theorem resolve (h : fs.Reaches last p l) : fs.resolve p last = .ok ⟨l, fs.node? l⟩ := by
  obtain ⟨k, hk, hleads⟩ := h
  rw [resolve_of_leadsTo hleads, if_pos hk]

theorem of_resolve (htree : fs.IsTree) {r : Resolved} (h : fs.resolve p last = .ok r) :
    fs.Reaches last p r.location ∧ r.node = fs.node? r.location := by
  obtain ⟨k, hk, hleads, hnode⟩ := leadsTo_of_resolve htree h
  exact ⟨⟨k, hk, hleads⟩, hnode⟩

theorem unique {l' : Location} (h : fs.Reaches last p l) (h' : fs.Reaches last p l') : l' = l := by
  obtain ⟨k, -, hleads⟩ := h
  obtain ⟨k', -, hleads'⟩ := h'
  exact hleads.unique hleads'

theorem isPlace (htree : fs.IsTree) (h : fs.Reaches last p l)
    (hl : fs.node? l ≠ some .directory) : fs.IsPlace l := by
  obtain ⟨k, -, hleads⟩ := h
  exact hleads.isPlace htree hl

theorem guided (h : fs.Reaches last p l) (hg : fs.Guides fs')
    (hlast : last = true → ∀ target, fs'.node? l ≠ some (.link target)) :
    fs'.Reaches last p l := by
  obtain ⟨k, hk, hleads⟩ := h
  exact ⟨k, hk, hleads.guided hg hlast⟩

/-- A path to an entry leads to the same entry from now on. -/
theorem guided_entry (h : fs.Reaches false p l) (hg : fs.Guides fs') : fs'.Reaches false p l :=
  h.guided hg nofun

/-- A path to a file leads to the file as long as that stays. -/
theorem guided_file (h : fs.Reaches true p l) (hg : fs.Guides fs') {content : Bytes}
    (hl : fs'.node? l = some (.file content)) : fs'.Reaches true p l :=
  h.guided hg fun _ target htarget => by
    rw [hl] at htarget
    cases htarget

theorem follow_last (h : fs.Reaches false p l) {content : Bytes}
    (hl : fs.node? l = some (.file content)) : fs.Reaches true p l := by
  obtain ⟨k, hk, hleads⟩ := h
  refine ⟨k, hk, hleads.follow_last fun target htarget => ?_⟩
  rw [hl] at htarget
  cases htarget

theorem follow_nothing (h : fs.Reaches false p l) (hl : fs.node? l = none) :
    fs.Reaches true p l := by
  obtain ⟨k, hk, hleads⟩ := h
  refine ⟨k, hk, hleads.follow_last fun target htarget => ?_⟩
  rw [hl] at htarget
  cases htarget

theorem follow_directory (h : fs.Reaches false p l) (hl : fs.node? l = some .directory) :
    fs.Reaches true p l := by
  obtain ⟨k, hk, hleads⟩ := h
  refine ⟨k, hk, hleads.follow_last fun target htarget => ?_⟩
  rw [hl] at htarget
  cases htarget

theorem respell (h : fs.Reaches last p l) (hp : p.IsPlain) (hq : q.IsPlain)
    (hsame : p.components = q.components) : fs.Reaches last q l := by
  obtain ⟨k, hk, hleads⟩ := h
  exact ⟨k, hk, hleads.respell hp hq hsame⟩

theorem join (h : fs.Reaches last p l) (hdir : fs.node? l = some .directory) {name : String}
    (hname : Path.IsName name) : fs.Reaches false (p.join name) (l ++ [name]) := by
  obtain ⟨k, hk, hleads⟩ := h
  exact ⟨k, hk, hleads.join hdir hname⟩

/-- Whatever name a path ends in, it leads into the same directory. -/
theorem sibling {name : String} (hname : Path.IsName name) (h : fs.Reaches false (p.join name) l) :
    ∃ d, l = d ++ [name] ∧
      ∀ {other}, Path.IsName other → fs.Reaches false (p.join other) (d ++ [other]) := by
  obtain ⟨k, hk, hleads⟩ := h
  obtain ⟨d, hd, hother⟩ := hleads.sibling hname
  exact ⟨d, hd, fun ho => ⟨k, hk, hother ho⟩⟩

end Reaches

/-! ## Reading -/

private theorem found_ok_iff (htree : fs.IsTree) (last : Bool) {node : Node} :
    (do
      match (← fs.resolve p last).node with
      | some node => pure node
      | none => .error .notFound : Except FileFault Node) = .ok node ↔
      ∃ l, fs.Reaches last p l ∧ fs.node? l = some node := by
  constructor
  · intro h
    obtain ⟨r, hr, h⟩ := bind_eq_ok h
    obtain ⟨hreach, hnode⟩ := Reaches.of_resolve htree hr
    refine ⟨r.location, hreach, ?_⟩
    rw [← hnode]
    cases hn : r.node with
    | none =>
        rw [hn] at h
        cases h
    | some n =>
        rw [hn] at h
        cases h
        rfl
  · rintro ⟨l, hreach, hnode⟩
    rw [hreach.resolve, hnode]
    rfl

theorem nodeAt_ok_iff (htree : fs.IsTree) {node : Node} :
    fs.nodeAt p = .ok node ↔ ∃ l, fs.Reaches false p l ∧ fs.node? l = some node :=
  found_ok_iff htree false

theorem targetAt_ok_iff (htree : fs.IsTree) {node : Node} :
    fs.targetAt p = .ok node ↔ ∃ l, fs.Reaches true p l ∧ fs.node? l = some node :=
  found_ok_iff htree true

theorem exists?_iff (htree : fs.IsTree) :
    fs.exists? p = true ↔ ∃ l, fs.Reaches false p l ∧ (fs.node? l).isSome := by
  unfold exists?
  cases h : fs.nodeAt p with
  | ok node =>
      obtain ⟨l, hreach, hnode⟩ := (nodeAt_ok_iff htree).1 h
      exact ⟨fun _ => ⟨l, hreach, by simp [hnode]⟩, fun _ => rfl⟩
  | error e =>
      refine ⟨nofun, ?_⟩
      rintro ⟨l, hreach, hsome⟩
      obtain ⟨node, hnode⟩ := Option.isSome_iff_exists.1 hsome
      rw [(nodeAt_ok_iff htree).2 ⟨l, hreach, hnode⟩] at h
      cases h

/-- What exists goes on existing as long as every node stays. -/
theorem exists?_keeps (htree : fs.IsTree) (htree' : fs'.IsTree) (hk : fs.Keeps fs')
    (h : fs.exists? p = true) : fs'.exists? p = true := by
  obtain ⟨l, hreach, hsome⟩ := (exists?_iff htree).1 h
  obtain ⟨node, hnode⟩ := Option.isSome_iff_exists.1 hsome
  exact (exists?_iff htree').2 ⟨l, hreach.guided_entry hk.guides, by simp [hk.node hnode]⟩

/-- A path to a place where there was nothing is, in no plain spelling, the path of anything. -/
theorem Reaches.components_ne (h : fs'.Reaches false p l) (htree : fs.IsTree) (hg : fs.Guides fs')
    (hl : fs.node? l = none) (hp : p.IsPlain) (hq : q.IsPlain) (hex : fs.exists? q = true) :
    q.components ≠ p.components := by
  intro hsame
  obtain ⟨l', hreach, hsome⟩ := (exists?_iff htree).1 hex
  rw [h.unique ((hreach.guided_entry hg).respell hq hp hsame), hl] at hsome
  cases hsome

theorem targetAt_of_reaches (htree : fs.IsTree) (h : fs.Reaches true p l) {node : Node}
    (hl : fs.node? l = some node) : fs.targetAt p = .ok node :=
  (targetAt_ok_iff htree).2 ⟨l, h, hl⟩

theorem readFile_of_reaches (htree : fs.IsTree) (h : fs.Reaches true p l) {content : Bytes}
    (hl : fs.node? l = some (.file content)) : fs.readFile p = .ok content := by
  rw [readFile, targetAt_of_reaches htree h hl]
  rfl

/-- A path is read behind all links, unless there are too many of them. -/
theorem readFile_of_leadsTo (htree : fs.IsTree) {k : Nat} (h : fs.LeadsTo true k p l)
    {content : Bytes} (hl : fs.node? l = some (.file content)) :
    fs.readFile p = .ok content ∨ fs.readFile p = .error .tooManyLinks := by
  by_cases hk : k ≤ linkLimit
  · exact .inl (readFile_of_reaches htree ⟨k, hk, h⟩ hl)
  · refine .inr ?_
    rw [readFile, targetAt, resolve_of_leadsTo h, if_neg hk]
    rfl

/-- The text of the location of a file reads as the file. -/
theorem canonical_of_reaches (h : fs.Reaches true p l) {node : Node}
    (hl : fs.node? l = some node) : fs.canonical p = .ok (pathOf l) := by
  rw [canonical, h.resolve]
  simp only [hl]
  rfl

/-- A path leads to a file with these bytes, which is no link to one. -/
structure Holds (fs : FileSystem) (p : Path) (bytes : Bytes) (l : Location) : Prop where
  reaches : fs.Reaches false p l
  node : fs.node? l = some (.file bytes)

namespace Holds

variable {bytes : Bytes}

theorem keeps (h : fs.Holds p bytes l) (hk : fs.Keeps fs') : fs'.Holds p bytes l :=
  ⟨h.reaches.guided_entry hk.guides, hk.node h.node⟩

theorem exists? (h : fs.Holds p bytes l) (htree : fs.IsTree) : fs.exists? p = true :=
  (exists?_iff htree).2 ⟨l, h.reaches, by simp [h.node]⟩

theorem readFile (h : fs.Holds p bytes l) (htree : fs.IsTree) : fs.readFile p = .ok bytes :=
  readFile_of_reaches htree (h.reaches.follow_last h.node) h.node

end Holds

/-- The names in a directory are names, and each stands for something. -/
theorem exists?_of_mem_namesIn (htree : fs.IsTree) (h : fs.Reaches true p l)
    (hl : fs.node? l = some .directory) {name : String} (hname : name ∈ fs.namesIn p) :
    Path.IsName name ∧ fs.exists? (p.join name) = true := by
  rw [namesIn, h.resolve, List.mem_mergeSort] at hname
  obtain ⟨loc, hloc, hname⟩ := List.mem_filterMap.1 hname
  -- the location is that of the directory with the name behind it
  have heq : loc = l ++ [name] := by
    unfold nameIn at hname
    split at hname
    · next last hlast =>
      split at hname
      · next hdrop =>
        obtain rfl := Option.some.inj hname
        obtain ⟨front, rfl⟩ := List.getLast?_eq_some_iff.1 hlast
        rw [List.dropLast_concat] at hdrop
        rw [hdrop]
      · cases hname
    · cases hname
  subst heq
  have hsome := (isSome_node?_iff (by simp)).2 hloc
  obtain ⟨node, hnode⟩ := Option.isSome_iff_exists.1 hsome
  have hisName : Path.IsName name := htree.isName hnode (by simp)
  exact ⟨hisName, (exists?_iff htree).2 ⟨_, h.join hl hisName, hsome⟩⟩

/-! ## Creating -/

/-- A file is created where there was nothing. -/
theorem createFile_ok (htree : fs.IsTree) (h : fs.createFile p = .ok fs') :
    ∃ l, fs.Reaches false p l ∧ fs.node? l = none ∧ fs.IsPlace l ∧
      fs' = fs.insert l (.file []) := by
  obtain ⟨r, hr, h⟩ := bind_eq_ok h
  obtain ⟨hreach, hnode⟩ := Reaches.of_resolve htree hr
  cases hn : r.node with
  | some node =>
      rw [hn] at h
      cases h
  | none =>
      rw [hn] at h hnode
      cases h
      exact ⟨r.location, hreach, hnode.symm, hreach.isPlace htree (by simp [← hnode]), rfl⟩

/-- A directory is created where there was nothing. -/
theorem createDirectory_ok (htree : fs.IsTree) (h : fs.createDirectory p = .ok fs') :
    ∃ l, fs.node? l = none ∧ fs.IsPlace l ∧ fs' = fs.insert l .directory := by
  obtain ⟨r, hr, h⟩ := bind_eq_ok h
  obtain ⟨hreach, hnode⟩ := Reaches.of_resolve htree hr
  cases hn : r.node with
  | some node =>
      rw [hn] at h
      cases h
  | none =>
      rw [hn] at h hnode
      cases h
      exact ⟨r.location, hnode.symm, hreach.isPlace htree (by simp [← hnode]), rfl⟩

/-- A node that is put where there was nothing leaves the tree as it was otherwise. -/
theorem IsTree.insert (htree : fs.IsTree) (hplace : fs.IsPlace l) (hnone : fs.node? l = none)
    (node : Node) : (fs.insert l node).IsTree ∧ fs.Keeps (fs.insert l node) :=
  ⟨htree.alters hplace (hplace.insert node).1, (hplace.insert node).1.keeps hnone⟩

theorem keeps_createDirectory (htree : fs.IsTree) (h : fs.createDirectory p = .ok fs') :
    fs'.IsTree ∧ fs.Keeps fs' := by
  obtain ⟨l, hnone, hplace, rfl⟩ := createDirectory_ok htree h
  exact htree.insert hplace hnone .directory

theorem keeps_createAll (htree : fs.IsTree) (budget : Nat) (p : Path) :
    (fs.createAll budget p).2.IsTree ∧ fs.Keeps (fs.createAll budget p).2 := by
  induction budget generalizing p with
  | zero => exact ⟨htree, .refl fs⟩
  | succ budget ih =>
      unfold createAll
      split
      · exact ⟨htree, .refl fs⟩
      split
      · next h => exact keeps_createDirectory htree h
      · split
        · exact ⟨htree, .refl fs⟩
        · next above _ =>
          -- the directories above come first, then the directory itself
          obtain ⟨htree', hkeeps⟩ := ih above
          split
          · next habove =>
            rw [habove] at htree' hkeeps
            exact ⟨htree', hkeeps⟩
          · next habove =>
            rw [habove] at htree' hkeeps
            split
            · next h =>
              obtain ⟨htree'', hkeeps'⟩ := keeps_createDirectory htree' h
              exact ⟨htree'', hkeeps.trans hkeeps'⟩
            · split <;> exact ⟨htree', hkeeps⟩
      · split <;> exact ⟨htree, .refl fs⟩

theorem keeps_ensureDirectory (htree : fs.IsTree) (p : Path) :
    (fs.ensureDirectory p).2.IsTree ∧ fs.Keeps (fs.ensureDirectory p).2 :=
  keeps_createAll htree (p.length + 1) p

/-! ## Operations on one file -/

theorem writeFile_of_reaches (h : fs.Reaches true p l) {content : Bytes}
    (hl : fs.node? l = some (.file content)) (bytes : Bytes) :
    fs.writeFile p bytes = .ok (fs.insert l (.file bytes)) := by
  rw [writeFile, h.resolve]
  simp only [hl]
  rfl

/-- Where there is nothing, a file is created. -/
theorem writeFile_of_nothing (h : fs.Reaches true p l) (hl : fs.node? l = none) (bytes : Bytes) :
    fs.writeFile p bytes = .ok (fs.insert l (.file bytes)) := by
  rw [writeFile, h.resolve]
  simp only [hl]
  rfl

theorem resolveEntry_of_reaches (hp : p.IsPlain) (h : fs.Reaches false p l) :
    fs.resolveEntry p = .ok ⟨l, fs.node? l⟩ := by
  have hempty : p.isEmpty = false := by simpa using hp.ne_empty
  rw [resolveEntry, hp.dropTrailingSlashes]
  simp only [hempty]
  exact h.resolve

theorem removeFile_of_reaches (hp : p.IsPlain) (h : fs.Reaches false p l) {content : Bytes}
    (hl : fs.node? l = some (.file content)) : fs.removeFile p = .ok (fs.erase l) := by
  rw [removeFile, resolveEntry_of_reaches hp h]
  simp only [hl, hp.endsInSlash]
  rfl

theorem createLink_of_reaches (hp : p.IsPlain) (h : fs.Reaches false p l)
    (hl : fs.node? l = none) {target : Path} (htarget : target.isEmpty = false) :
    fs.createLink p target = .ok (fs.insert l (.link target)) := by
  rw [createLink, resolveEntry_of_reaches hp h]
  simp only [hl, hp.endsInSlash, htarget]
  rfl

end RuleScan.FileSystem
