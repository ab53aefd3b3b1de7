import RuleScan.Proofs.Files.Segments

/-!
# File systems as trees

In a file system that is a tree, every node but the root lies in a directory, the names in it
are names, and relative paths start from a directory.  A change at one location keeps this as
long as no directory is replaced and what is put there lies in a directory.

Two relations say how a file system may differ from an earlier one.  The earlier one `Guides`
it if all directories and links stay, so that paths lead where they led.  It `Keeps` the earlier
one if every node is what it was.

## Main results

* `isTree_iff` — being a tree, said of nodes.
* `IsTree.alters` — a change at one location leaves a tree.
* `Alters.keeps`, `Alters.guides` — what such a change does to the other nodes.
-/

namespace RuleScan.FileSystem

variable {fs fs' fs'' : FileSystem} {loc : Location}

/-- Nodes lie in directories, under names, and relative paths start from a directory. -/
structure IsTree (fs : FileSystem) : Prop where
  parents : ∀ loc ∈ fs.nodes.keys, fs.node? loc.dropLast = some .directory
  names : ∀ loc ∈ fs.nodes.keys, ∀ name ∈ loc, Path.IsName name
  current : fs.node? fs.current = some .directory

instance (fs : FileSystem) : Decidable fs.IsTree :=
  decidable_of_iff ((∀ loc ∈ fs.nodes.keys, fs.node? loc.dropLast = some .directory) ∧
      (∀ loc ∈ fs.nodes.keys, ∀ name ∈ loc, Path.IsName name) ∧
      fs.node? fs.current = some .directory)
    ⟨fun h => ⟨h.1, h.2.1, h.2.2⟩, fun h => ⟨h.parents, h.names, h.current⟩⟩

@[simp] theorem node?_root (fs : FileSystem) : fs.node? [] = some .directory := by
  simp [node?]

theorem isSome_node?_iff (hloc : loc ≠ []) :
    (fs.node? loc).isSome ↔ loc ∈ fs.nodes.keys := by
  rw [node?, if_neg hloc, Option.isSome_iff_ne_none, ne_eq, Table.get?_eq_none_iff,
    Decidable.not_not]

/-- A file system is a tree if all of its nodes are where they should be. -/
theorem isTree_iff : fs.IsTree ↔
    (∀ loc, (fs.node? loc).isSome →
      fs.node? loc.dropLast = some .directory ∧ ∀ name ∈ loc, Path.IsName name) ∧
    fs.node? fs.current = some .directory := by
  constructor
  · intro h
    refine ⟨fun loc hloc => ?_, h.current⟩
    by_cases hroot : loc = []
    · subst hroot
      exact ⟨node?_root fs, nofun⟩
    · rw [isSome_node?_iff hroot] at hloc
      exact ⟨h.parents loc hloc, h.names loc hloc⟩
  · rintro ⟨h, hcurrent⟩
    have hkey : ∀ loc ∈ fs.nodes.keys,
        fs.node? loc.dropLast = some .directory ∧ ∀ name ∈ loc, Path.IsName name := by
      intro loc hloc
      by_cases hroot : loc = []
      · subst hroot
        exact ⟨node?_root fs, nofun⟩
      · exact h loc ((isSome_node?_iff hroot).2 hloc)
    exact ⟨fun loc hloc => (hkey loc hloc).1, fun loc hloc => (hkey loc hloc).2, hcurrent⟩

theorem IsTree.parent (h : fs.IsTree) {node : Node} (hloc : fs.node? loc = some node) :
    fs.node? loc.dropLast = some .directory :=
  ((isTree_iff.1 h).1 loc (by simp [hloc])).1

theorem IsTree.isName (h : fs.IsTree) {node : Node} (hloc : fs.node? loc = some node)
    {name : String} (hname : name ∈ loc) : Path.IsName name :=
  ((isTree_iff.1 h).1 loc (by simp [hloc])).2 name hname

/-! ## How a file system changes -/

/-- Directories and links stay. -/
structure Guides (fs fs' : FileSystem) : Prop where
  current : fs'.current = fs.current
  directory : ∀ {loc}, fs.node? loc = some .directory → fs'.node? loc = some .directory
  link : ∀ {loc target}, fs.node? loc = some (.link target) → fs'.node? loc = some (.link target)

/-- Every node is what it was. -/
structure Keeps (fs fs' : FileSystem) : Prop where
  current : fs'.current = fs.current
  node : ∀ {loc node}, fs.node? loc = some node → fs'.node? loc = some node

/-- The nodes differ at one location at most. -/
structure Alters (fs : FileSystem) (loc : Location) (fs' : FileSystem) : Prop where
  current : fs'.current = fs.current
  elsewhere : ∀ {other}, other ≠ loc → fs'.node? other = fs.node? other

theorem Keeps.refl (fs : FileSystem) : fs.Keeps fs := ⟨rfl, id⟩

theorem Keeps.trans (h : fs.Keeps fs') (h' : fs'.Keeps fs'') : fs.Keeps fs'' :=
  ⟨h'.current.trans h.current, fun hnode => h'.node (h.node hnode)⟩

theorem Guides.trans (h : fs.Guides fs') (h' : fs'.Guides fs'') : fs.Guides fs'' :=
  ⟨h'.current.trans h.current, fun hnode => h'.directory (h.directory hnode),
    fun hnode => h'.link (h.link hnode)⟩

theorem Keeps.guides (h : fs.Keeps fs') : fs.Guides fs' :=
  ⟨h.current, fun hnode => h.node hnode, fun hnode => h.node hnode⟩

/-- A node put where there was nothing leaves all others as they were. -/
theorem Alters.keeps (h : fs.Alters loc fs') (hloc : fs.node? loc = none) : fs.Keeps fs' where
  current := h.current
  node := by
    intro other node hnode
    have hne : other ≠ loc := by
      rintro rfl
      rw [hloc] at hnode
      cases hnode
    rw [h.elsewhere hne, hnode]

/-- Where a file was, there may be anything or nothing. -/
theorem Alters.guides (h : fs.Alters loc fs') {content : Bytes}
    (hloc : fs.node? loc = some (.file content)) : fs.Guides fs' := by
  have helsewhere : ∀ {other node}, fs.node? other = some node → (∀ c, node ≠ .file c) →
      fs'.node? other = some node := by
    intro other node hnode hfile
    have hne : other ≠ loc := by
      rintro rfl
      rw [hloc, Option.some.injEq] at hnode
      exact hfile content hnode.symm
    rw [h.elsewhere hne, hnode]
  exact ⟨h.current, fun hnode => helsewhere hnode nofun, fun hnode => helsewhere hnode nofun⟩

theorem Alters.trans (h : fs.Alters loc fs') (h' : fs'.Alters loc fs'') : fs.Alters loc fs'' :=
  ⟨h'.current.trans h.current, fun hne => (h'.elsewhere hne).trans (h.elsewhere hne)⟩

/-- A place for a node: it lies in a directory, under a name, and is no directory itself. -/
structure IsPlace (fs : FileSystem) (loc : Location) : Prop where
  parent : fs.node? loc.dropLast = some .directory
  isName : ∀ name ∈ loc, Path.IsName name
  open_ : fs.node? loc ≠ some .directory

/-- What is changed at a place may be changed there again. -/
theorem IsPlace.alters (h : fs.IsPlace loc) (ha : fs.Alters loc fs')
    (hopen : fs'.node? loc ≠ some .directory) : fs'.IsPlace loc := by
  refine ⟨?_, h.isName, hopen⟩
  have hne : loc.dropLast ≠ loc := by
    intro heq
    have hparent := h.parent
    rw [heq] at hparent
    exact h.open_ hparent
  rw [ha.elsewhere hne, h.parent]

theorem IsPlace.ne_root (h : fs.IsPlace loc) : loc ≠ [] := by
  rintro rfl
  exact h.open_ (node?_root fs)

theorem IsTree.isPlace (h : fs.IsTree) {node : Node} (hloc : fs.node? loc = some node)
    (hnode : node ≠ .directory) : fs.IsPlace loc :=
  ⟨h.parent hloc, fun _ hname => h.isName hloc hname, by simpa [hloc] using hnode⟩

theorem IsPlace.insert (h : fs.IsPlace loc) (node : Node) :
    fs.Alters loc (fs.insert loc node) ∧ (fs.insert loc node).node? loc = some node := by
  have hnode := node?_insert fs h.ne_root node
  exact ⟨⟨rfl, fun hne => by rw [hnode, if_neg hne]⟩, by rw [hnode, if_pos rfl]⟩

theorem IsPlace.erase (h : fs.IsPlace loc) :
    fs.Alters loc (fs.erase loc) ∧ (fs.erase loc).node? loc = none := by
  have hnode : ∀ other, (fs.erase loc).node? other =
      if other = loc then none else fs.node? other := by
    intro other
    unfold node? FileSystem.erase
    by_cases hother : other = []
    · subst hother
      simp [Ne.symm h.ne_root]
    · simp [hother, Table.get?_erase]
  exact ⟨⟨rfl, fun hne => by rw [hnode, if_neg hne]⟩, by rw [hnode, if_pos rfl]⟩

/-- A change at a place leaves a tree: no node can lie below the place, for it is no
directory. -/
theorem IsTree.alters (h : fs.IsTree) (hplace : fs.IsPlace loc) (ha : fs.Alters loc fs') :
    fs'.IsTree := by
  have hdirectory : ∀ {other}, fs.node? other = some .directory →
      fs'.node? other = some .directory := by
    intro other hother
    have hne : other ≠ loc := by
      rintro rfl
      exact hplace.open_ hother
    rw [ha.elsewhere hne, hother]
  refine isTree_iff.2 ⟨fun other hother => ?_, ?_⟩
  · by_cases hne : other = loc
    · subst hne
      exact ⟨hdirectory hplace.parent, hplace.isName⟩
    · rw [ha.elsewhere hne] at hother
      obtain ⟨hparent, hnames⟩ := (isTree_iff.1 h).1 other hother
      exact ⟨hdirectory hparent, hnames⟩
  · rw [ha.current]
    exact hdirectory h.current

end RuleScan.FileSystem
