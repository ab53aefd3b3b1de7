import RuleScan.Output
import RuleScan.Proofs.Files.Change

/-!
# What an output directory does to a file system

Whatever name is suggested, the name that is handed out can name an entry of a directory: the
characters of a suggestion that could lead elsewhere are replaced, and a number before the
extension brings in none.  So a path that is handed out is plain, lies directly inside the
output directory.

A file is replaced by a reference in two operations.  Once the file is gone, its path leads to the
same place and the file that is referred to is where it was, so the second operation can only fail
if the system refuses the reference.  Then there is nothing where the file was (`Refers`).

## Main results

* `isName_numbered` — the names handed out are names.
* `create_ok` — what is created is a new entry of the output directory.
* `replaceWithReference_of_reaches` — a file becomes a reference to where the other one is, unless
  that is refused.
-/

namespace RuleScan

namespace Output

/-- Characters that make a name: all of them are safe, and no `.` comes first. -/
structure IsHarmless (cs : List Char) : Prop where
  head : ∃ c, cs.head? = some c ∧ c ≠ '.'
  safe : ∀ c ∈ cs, isSafe c = true

theorem IsHarmless.isName {name : String} (h : IsHarmless name.toList) : Path.IsName name := by
  obtain ⟨c, hc, hdot⟩ := h.head
  refine ⟨⟨?_, ?_⟩, ?_⟩
  · have hempty : name ≠ "" := by
      rintro rfl
      cases hc
    have hhere : name ≠ "." := by
      rintro rfl
      exact hdot (Option.some.inj hc).symm
    simp [Path.isIdle, hempty, hhere]
  · rintro rfl
    exact hdot (Option.some.inj hc).symm
  · intro hslash
    exact absurd (h.safe _ hslash) (by decide)

theorem isHarmless_sanitizeChars (cs : List Char) : IsHarmless (sanitizeChars cs) := by
  have hsafe : ∀ c ∈ (cs.map fun c => if isSafe c then c else '_').take nameLimit,
      isSafe c = true := by
    intro c hc
    obtain ⟨d, -, rfl⟩ := List.mem_map.1 (List.mem_of_mem_take hc)
    split
    · assumption
    · decide
  unfold sanitizeChars
  split
  · exact ⟨⟨'u', rfl, by decide⟩, List.all_eq_true.1 (by decide)⟩
  · next rest hrest =>
    rw [hrest] at hsafe
    exact ⟨⟨'_', rfl, by decide⟩,
      List.forall_mem_cons.2 ⟨by decide, fun c hc => hsafe c (List.mem_cons_of_mem _ hc)⟩⟩
  · next hne hdot =>
    refine ⟨?_, hsafe⟩
    cases hname : (cs.map fun c => if isSafe c then c else '_').take nameLimit with
    | nil => exact absurd hname hne
    | cons c rest =>
        refine ⟨c, rfl, ?_⟩
        rintro rfl
        exact hdot rest hname

/-- The stem of a name begins as the name does, and neither part has other characters. -/
theorem splitExtension_spec (cs : List Char) :
    (splitExtension cs).1.head? = cs.head? ∧
      ∀ c ∈ (splitExtension cs).1 ++ (splitExtension cs).2, c ∈ cs ∨ c = '.' := by
  unfold splitExtension
  dsimp only
  split
  · exact ⟨rfl, fun c hc => .inl (by simpa using hc)⟩
  · next hbefore =>
    refine ⟨?_, ?_⟩
    · rw [List.head?_take, if_neg]
      intro hzero
      rw [hzero] at hbefore
      exact hbefore rfl
    · intro c hc
      rw [List.mem_append, List.mem_cons, List.mem_reverse] at hc
      rcases hc with hc | rfl | hc
      · exact .inl (List.mem_of_mem_take hc)
      · exact .inr rfl
      · exact .inl (List.mem_reverse.1 ((List.takeWhile_sublist _).subset hc))

theorem isHarmless_numbered {name : String} (h : IsHarmless name.toList) (n : Nat) :
    IsHarmless (numbered name n).toList := by
  obtain ⟨hhead, hmem⟩ := splitExtension_spec name.toList
  have hpart : ∀ c ∈ (splitExtension name.toList).1 ++ (splitExtension name.toList).2,
      isSafe c = true := by
    intro c hc
    rcases hmem c hc with hc | rfl
    · exact h.safe c hc
    · decide
  unfold numbered
  split
  · exact h
  · simp only [String.toList_append, String.toList_ofList]
    refine ⟨?_, fun c hc => ?_⟩
    · obtain ⟨c, hc, hdot⟩ := h.head
      exact ⟨c, by simp [List.head?_append, hhead, hc], hdot⟩
    · simp only [List.mem_append] at hc hpart
      rcases hc with ((hc | hc) | hc) | hc
      · exact hpart c (.inl hc)
      · have hunderscore : c = '_' := by simpa using hc
        subst hunderscore
        decide
      · have hdigit : c.isDigit = true := by
          rw [Nat.toString_eq_ofList_toDigits, String.toList_ofList] at hc
          exact Nat.isDigit_of_mem_toDigits (by decide) (by decide) hc
        simp [isSafe, Char.isAlphanum, hdigit]
      · exact hpart c (.inr hc)

/-- Every name that is tried for a suggestion can name an entry of a directory. -/
theorem isName_numbered (suggestion : String) (n : Nat) :
    Path.IsName (numbered (sanitize suggestion) n) := by
  refine (isHarmless_numbered ?_ n).isName
  rw [sanitize, String.toList_ofList]
  exact isHarmless_sanitizeChars suggestion.toList

end Output

/-- Every reference is a link, and none of them is refused. -/
structure References.IsReliable (r : References) : Prop where
  links : r.links = true
  refused : ∀ fs p target, r.refused fs p target = none

namespace OutputDir

open Output FileSystem

variable {out out' : OutputDir} {fs fs' : FileSystem} {p : Path} {suggestion : String}

theorem firstFree_eq_candidate (out : OutputDir) (fs : FileSystem) (name : String)
    (budget n : Nat) : ∃ m, out.firstFree fs name budget n = out.candidate name m := by
  induction budget generalizing n with
  | zero => exact ⟨n, rfl⟩
  | succ budget ih =>
      unfold firstFree
      split
      · exact ⟨n, rfl⟩
      · exact ih (n + 1)

/-- The path that is handed out is a name inside the directory. -/
theorem newName_eq_join (out : OutputDir) (fs : FileSystem) (suggestion : String) :
    ∃ name, Path.IsName name ∧ (out.newName fs suggestion).1 = out.root.join name := by
  obtain ⟨n, hn⟩ := out.firstFree_eq_candidate fs (sanitize suggestion)
    (out.taken.length + fs.nodes.size + 1) 0
  exact ⟨_, isName_numbered suggestion n, hn⟩

/-- Creating a file does not move the directory. -/
theorem root_create (out : OutputDir) (fs : FileSystem) (suggestion : String) :
    (out.create fs suggestion).2.root = out.root := by
  unfold create
  dsimp only
  split <;> rfl

/-- A file is created under a name inside the directory. -/
theorem create_ok (h : out.create fs suggestion = (.ok (p, fs'), out')) :
    fs.createFile p = .ok fs' ∧ ∃ name, Path.IsName name ∧ p = out.root.join name := by
  unfold create at h
  dsimp only at h
  split at h
  · next fs'' hfs =>
    simp only [Prod.mk.injEq, Except.ok.injEq] at h
    obtain ⟨⟨rfl, rfl⟩, -⟩ := h
    exact ⟨hfs, out.newName_eq_join fs suggestion⟩
  · cases h

/-! ## References -/

/-- What is at the place of a file that was to become a reference to another location: a link, a
note, or nothing at all. -/
inductive Refers (references : References) (p : Path) (l l' : Location) :
    Except Error Unit → FileSystem → Prop
  | link {files : FileSystem} (hlinks : references.links = true)
      (hl : files.node? l = some (.link (pathOf l'))) : Refers references p l l' (.ok ()) files
  | note {files : FileSystem} (hlinks : references.links = false)
      (hl : files.node? l = some (.file (References.note (pathOf l')))) :
      Refers references p l l' (.ok ()) files
  | refused {files now : FileSystem} {cause : FileFault}
      (hrefused : references.refused now p (pathOf l') = some cause)
      (hl : files.node? l = none) : Refers references p l l' (.error (.fileWrite p cause)) files

/-- A reference is created where there is nothing, or the system has refused it. -/
theorem create_of_reaches (references : References) (l' : Location) (hp : p.IsPlain)
    (h : fs.Reaches false p l) (hl : fs.node? l = none) :
    (∃ cause, references.create fs p (pathOf l') = .error cause ∧
      references.refused fs p (pathOf l') = some cause) ∨
    references.links = true ∧
      references.create fs p (pathOf l') = .ok (fs.insert l (.link (pathOf l'))) ∨
    references.links = false ∧ references.create fs p (pathOf l') =
      .ok (fs.insert l (.file (References.note (pathOf l')))) := by
  unfold References.create
  cases hrefused : references.refused fs p (pathOf l') with
  | some cause => exact .inl ⟨cause, rfl, rfl⟩
  | none =>
      cases references.links with
      | true =>
          exact .inr (.inl ⟨rfl, createLink_of_reaches hp h hl (pathOf_ne_empty l')⟩)
      | false =>
          exact .inr (.inr ⟨rfl, writeFile_of_nothing (h.follow_nothing hl) hl _⟩)

/-- A file of the directory is replaced by a reference to the location of another file, and nothing
else changes. -/
theorem replaceWithReference_of_reaches (references : References) {l l' : Location}
    {earlier : Path} {content : Bytes} {node : Node} (htree : fs.IsTree)
    (hin : out.contains p = true) (hp : p.IsPlain) (h : fs.Reaches false p l)
    (hl : fs.node? l = some (.file content)) (h' : fs.Reaches true earlier l')
    (hl' : fs.node? l' = some node) (hnode : ∀ target, node ≠ .link target) (hne : l' ≠ l) :
    ∃ r files, out.replaceWithReference fs p earlier references = (r, files) ∧
      fs.Alters l files ∧ files.IsTree ∧ Refers references p l l' r files := by
  have hplace : fs.IsPlace l := htree.isPlace hl nofun
  obtain ⟨herase, hnone⟩ := hplace.erase
  have hguides : fs.Guides (fs.erase l) := herase.guides hl
  have hplace' : (fs.erase l).IsPlace l := hplace.alters herase (by simp [hnone])
  have htree' : (fs.erase l).IsTree := htree.alters hplace herase
  -- with the file gone, the path and the other file's path lead where they led before
  have hreach : (fs.erase l).Reaches false p l := h.guided_entry hguides
  have hnode' : (fs.erase l).node? l' = some node := by rw [herase.elsewhere hne, hl']
  have hreach' : (fs.erase l).Reaches true earlier l' := by
    refine h'.guided hguides fun _ target htarget => ?_
    rw [hnode', Option.some.injEq] at htarget
    exact hnode target htarget
  have hput : ∀ node, fs.Alters l ((fs.erase l).insert l node) ∧
      ((fs.erase l).insert l node).IsTree ∧
      ((fs.erase l).insert l node).node? l = some node := by
    intro node
    obtain ⟨hinsert, hl⟩ := hplace'.insert node
    exact ⟨herase.trans hinsert, htree'.alters hplace' hinsert, hl⟩
  rw [replaceWithReference, hin, removeFile_of_reaches hp h hl]
  simp only [Bool.not_true, Bool.false_eq_true, if_false]
  rw [canonical_of_reaches hreach' hnode']
  simp only [Except.toOption, Option.getD_some]
  obtain ⟨cause, hcreate, hrefused⟩ | ⟨hlinks, hcreate⟩ | ⟨hlinks, hcreate⟩ :=
    create_of_reaches references l' hp hreach hnone
  · rw [hcreate]
    exact ⟨_, _, rfl, herase, htree', .refused hrefused hnone⟩
  · obtain ⟨halters, hlinked, hl⟩ := hput (.link (pathOf l'))
    rw [hcreate]
    exact ⟨_, _, rfl, halters, hlinked, .link hlinks hl⟩
  · obtain ⟨halters, hnoted, hl⟩ := hput (.file (References.note (pathOf l')))
    rw [hcreate]
    exact ⟨_, _, rfl, halters, hnoted, .note hlinks hl⟩

end OutputDir

end RuleScan
