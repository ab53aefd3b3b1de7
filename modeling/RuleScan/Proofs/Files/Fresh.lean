import RuleScan.Proofs.Files.Output
import Mathlib.Data.List.Nodup
import Mathlib.Data.List.Perm.Subperm

/-!
# Names that are handed out are free

A suggestion is numbered until a path is found that was not handed out before and at which there
is nothing.  The search has a budget, and in a tree the budget is large enough: different numbers
make different names, whichever suggestion they belong to, so that every path that is passed over
uses up one of those handed out or one of the nodes.  What is found when the search stops is
therefore free, and a path that was handed out is not handed out a second time.

## Main results

* `numbered_injective` — different numbers make different names.
* `isFree_newName` — a path that is handed out is free.
* `newName_ne_taken` — a path that was handed out is not handed out again.
-/

namespace RuleScan

namespace Output

theorem length_splitExtension (cs : List Char) :
    (splitExtension cs).1.length + (splitExtension cs).2.length = cs.length := by
  unfold splitExtension
  dsimp only
  split
  · rfl
  · next hbefore =>
    rw [List.isEmpty_iff, ← List.length_eq_zero_iff, List.length_take] at hbefore
    rw [List.length_take, List.length_cons]
    omega

/-- A name with a number is longer than the name. -/
theorem toList_numbered (name : String) {n : Nat} (hn : n ≠ 0) :
    (numbered name n).toList = (splitExtension name.toList).1 ++
      '_' :: (Nat.toDigits 10 n ++ (splitExtension name.toList).2) := by
  rw [numbered, if_neg hn]
  simp

theorem numbered_ne_self (name : String) {n : Nat} (hn : n ≠ 0) : numbered name n ≠ name := by
  intro h
  have hlength := congrArg List.length (toList_numbered name hn)
  rw [h, ← length_splitExtension name.toList] at hlength
  simp only [List.length_append, List.length_cons] at hlength
  omega

theorem numbered_injective (name : String) : Function.Injective (numbered name) := by
  intro m n h
  have hzero : numbered name 0 = name := if_pos rfl
  by_cases hm : m = 0
  · subst hm
    by_contra hn
    exact numbered_ne_self name (Ne.symm hn) (h.symm.trans hzero)
  by_cases hn : n = 0
  · subst hn
    exact absurd (h.trans hzero) (numbered_ne_self name hm)
  -- the digits stand between the same characters
  have hchars := congrArg String.toList h
  rw [toList_numbered name hm, toList_numbered name hn, List.append_cancel_left_eq,
    List.cons.injEq, List.append_cancel_right_eq] at hchars
  have hvalue := congrArg (fun ds => Nat.ofDigitChars 10 ds 0) hchars.2
  simpa using hvalue

end Output

namespace OutputDir

open Output FileSystem

variable {out : OutputDir} {fs : FileSystem} {p : Path} {suggestion : String} {numbers : List Nat}

theorem isFree_iff : out.isFree fs p = true ↔
    (∀ q ∈ out.taken, q.components ≠ p.components) ∧ fs.exists? p = false := by
  simp [isFree, Path.same_iff]

theorem isFree_eq_false_iff : out.isFree fs p = false ↔
    p.components ∈ out.taken.map Path.components ∨ fs.exists? p = true := by
  rw [← Bool.not_eq_true, isFree_iff, not_and_or, Bool.not_eq_false, List.mem_map]
  push Not
  exact Iff.rfl

/-- The search finds a free path, or it passed over as many paths as the budget allows. -/
theorem isFree_firstFree (out : OutputDir) (fs : FileSystem) (name : String) (budget n : Nat) :
    out.isFree fs (out.firstFree fs name budget n) = true ∨
      ∀ i < budget, out.isFree fs (out.candidate name (n + i)) = false := by
  induction budget generalizing n with
  | zero => exact .inr nofun
  | succ budget ih =>
      unfold firstFree
      split
      · next hfree => exact .inl hfree
      · next hbusy =>
        refine (ih (n + 1)).imp_right fun hrest i hi => ?_
        cases i with
        | zero => simpa using hbusy
        | succ i =>
            have hnext := hrest i (Nat.lt_of_succ_lt_succ hi)
            rwa [Nat.add_assoc, Nat.add_comm 1 i] at hnext

theorem components_candidate (out : OutputDir) (suggestion : String) (n : Nat) :
    (out.candidate (sanitize suggestion) n).components =
      out.root.components ++ [.name (numbered (sanitize suggestion) n)] :=
  Path.components_join out.root (isName_numbered suggestion n)

/-- No more candidates are taken than paths. -/
theorem length_le_taken (hnodup : numbers.Nodup)
    (h : ∀ n ∈ numbers, (out.candidate (sanitize suggestion) n).components ∈
      out.taken.map Path.components) : numbers.length ≤ out.taken.length := by
  have hinj : Function.Injective fun n => (out.candidate (sanitize suggestion) n).components := by
    intro m n hmn
    simp only [components_candidate, List.append_cancel_left_eq] at hmn
    exact numbered_injective (sanitize suggestion) (by simpa using hmn)
  have hsub := List.subperm_of_subset (hnodup.map hinj) (List.forall_mem_map.2 h)
  simpa using hsub.length_le

/-- No more candidates exist than nodes: all of them are entries of one directory. -/
theorem length_le_nodes (htree : fs.IsTree) (hnodup : numbers.Nodup)
    (h : ∀ n ∈ numbers, fs.exists? (out.candidate (sanitize suggestion) n) = true) :
    numbers.length ≤ fs.nodes.size := by
  have hreach : ∀ n ∈ numbers, ∃ l,
      fs.Reaches false (out.root.join (numbered (sanitize suggestion) n)) l ∧
      (fs.node? l).isSome := fun n hn => (exists?_iff htree).1 (h n hn)
  obtain ⟨d, hd⟩ : ∃ d : Location, ∀ n ∈ numbers,
      d ++ [numbered (sanitize suggestion) n] ∈ fs.nodes.keys := by
    cases numbers with
    | nil => exact ⟨[], nofun⟩
    | cons first rest =>
        obtain ⟨l, hl, -⟩ := hreach first List.mem_cons_self
        obtain ⟨d, -, hother⟩ := hl.sibling (isName_numbered suggestion first)
        refine ⟨d, fun n hn => ?_⟩
        obtain ⟨k, hk, hsome⟩ := hreach n hn
        rw [(hother (isName_numbered suggestion n)).unique hk] at hsome
        exact (isSome_node?_iff (by simp)).1 hsome
  have hinj : Function.Injective fun n => d ++ [numbered (sanitize suggestion) n] := by
    intro m n hmn
    exact numbered_injective (sanitize suggestion) (by simpa using hmn)
  have hsub := List.subperm_of_subset (hnodup.map hinj) (List.forall_mem_map.2 hd)
  simpa [Table.keys, Table.size] using hsub.length_le

/-- Every candidate that is passed over is taken or exists. -/
theorem le_of_busy (htree : fs.IsTree) {budget : Nat}
    (h : ∀ n < budget, out.isFree fs (out.candidate (sanitize suggestion) n) = false) :
    budget ≤ out.taken.length + fs.nodes.size := by
  simp only [isFree_eq_false_iff] at h
  let isTaken : Nat → Bool := fun n =>
    decide ((out.candidate (sanitize suggestion) n).components ∈ out.taken.map Path.components)
  have hnodup : (List.range budget).Nodup := List.nodup_range
  have htaken := length_le_taken (hnodup.filter isTaken) fun n hn =>
    of_decide_eq_true (List.mem_filter.1 hn).2
  have hexist := length_le_nodes htree (hnodup.filter fun n => !isTaken n) fun n hn => by
    obtain ⟨hmem, hnot⟩ := List.mem_filter.1 hn
    exact (h n (List.mem_range.1 hmem)).resolve_left (by simpa [isTaken] using hnot)
  have hsum := List.length_eq_length_filter_add isTaken (l := List.range budget)
  rw [List.length_range] at hsum
  omega

/-- A path that is handed out was not handed out before, and there is nothing at it. -/
theorem isFree_newName (htree : fs.IsTree) (out : OutputDir) (suggestion : String) :
    out.isFree fs (out.newName fs suggestion).1 = true := by
  rcases out.isFree_firstFree fs (sanitize suggestion) (out.taken.length + fs.nodes.size + 1) 0
    with hfree | hbusy
  · exact hfree
  · simp only [Nat.zero_add] at hbusy
    have hbudget := le_of_busy htree hbusy
    omega

/-- The name is reserved: whatever happens to the files, it is not handed out a second time. -/
theorem newName_ne_taken (htree : fs.IsTree) (out : OutputDir) (suggestion : String)
    (hp : p ∈ out.taken) : (out.newName fs suggestion).1.components ≠ p.components :=
  fun h => (isFree_iff.1 (isFree_newName htree out suggestion)).1 p hp h.symm

end OutputDir

end RuleScan
