import Mathlib.Data.List.Infix
import RuleScan.Proofs.Evaluation.Chunks
import RuleScan.Proofs.Value.Exact

/-!
# Positions

Positions in a file delimit the ranges between neighbours.  That no such range is empty, reversed
or beyond the end is a condition on all the positions: they increase, and none is beyond the end.
The ranges together are then the one range from the first position to the last.

Positions are given as numbers, which may have any width and sign.  No more numbers can increase
than there are words, so that their count is a number again.

## Main results

* `flatten_rangesBetween` — the ranges between positions are one range together.
* `badRange?_eq_none_iff` — which positions delimit ranges of a file.
* `badRange?_offsets_eq_none_iff` — which numbers do.
* `Carvable.toInt_count` — the count of the ranges fits into a number.
-/

namespace RuleScan.Builtin

/-! ## Ranges between positions -/

/-- The ranges between positions. -/
def rangesBetween (ps : List Nat) : List (Nat × Nat) := ps.zip ps.tail

variable {d : Bytes} {ps : List Nat} {size : Nat}

theorem adjacent_eq_rangesBetween (ps : List Nat) : adjacent ps = rangesBetween ps := by
  fun_induction adjacent ps with
  | case1 a b rest ih =>
    rw [ih]
    rfl
  | case2 ps h =>
    cases ps with
    | nil => rfl
    | cons a rest =>
      cases rest with
      | nil => rfl
      | cons b rest => exact absurd rfl (h a b rest)

/-- The induction is on the positions; the ranges behind the first one are together one range. -/
theorem flatten_rangesBetween (d : Bytes) (hsorted : ps.Pairwise (· < ·)) :
    ∀ first ∈ ps.head?, ∀ last ∈ ps.getLast?,
      ((rangesBetween ps).map fun q => d.extract q.1 q.2).flatten = d.extract first last := by
  induction ps with
  | nil => simp
  | cons a rest ih =>
    rintro first hfirst last hlast
    obtain rfl : a = first := by simpa using hfirst
    cases rest with
    | nil =>
      obtain rfl : a = last := by simpa using hlast
      rw [List.extract_eq_take_drop, Nat.sub_self, List.take_zero]
      rfl
    | cons b rest =>
      obtain ⟨hbelow, hothers⟩ := List.pairwise_cons.1 hsorted
      rw [List.getLast?_cons_cons] at hlast
      have hrest := ih hothers b rfl last hlast
      have hlt : a < b := hbelow b List.mem_cons_self
      have hle : b ≤ last := by
        rcases List.mem_cons.1 (List.mem_of_getLast? hlast) with rfl | hmem
        · exact le_refl _
        · exact (List.rel_of_pairwise_cons hothers hmem).le
      rw [← extract_append_extract d hlt.le hle, ← hrest]
      rfl

theorem badRange?_eq_none_iff_forall {ranges : List (Nat × Nat)} :
    badRange? size ranges = none ↔ ∀ q ∈ ranges, q.1 < q.2 ∧ q.2 ≤ size := by
  rw [badRange?, List.find?_eq_none]
  simp

/-- The induction is on the positions; a position is below all that follow if it is below the
next one. -/
theorem badRange?_eq_none_iff (h : 2 ≤ ps.length) :
    badRange? size (adjacent ps) = none ↔ ps.Pairwise (· < ·) ∧ ∀ p ∈ ps, p ≤ size := by
  rw [badRange?_eq_none_iff_forall]
  fun_induction adjacent ps with
  | case1 a b rest ih =>
    cases rest with
    | nil =>
      have hnone : adjacent [b] = [] := rfl
      rw [hnone, List.forall_mem_singleton, List.pairwise_pair, List.forall_mem_cons,
        List.forall_mem_singleton]
      omega
    | cons c rest =>
      rw [List.forall_mem_cons, ih (by simp)]
      constructor
      · rintro ⟨⟨hlt, hle⟩, hsorted, hwithin⟩
        refine ⟨List.pairwise_cons.2 ⟨?_, hsorted⟩, List.forall_mem_cons.2 ⟨by omega, hwithin⟩⟩
        exact List.forall_mem_cons.2
          ⟨hlt, fun x hx => hlt.trans (List.rel_of_pairwise_cons hsorted hx)⟩
      · rintro ⟨hsorted, hwithin⟩
        obtain ⟨hfirst, hothers⟩ := List.pairwise_cons.1 hsorted
        obtain ⟨-, hrest⟩ := List.forall_mem_cons.1 hwithin
        exact ⟨⟨hfirst b List.mem_cons_self, hrest b List.mem_cons_self⟩, hothers, hrest⟩
  | case2 ps hshort =>
    cases ps with
    | nil => simp at h
    | cons a rest =>
      cases rest with
      | nil => simp at h
      | cons b rest => exact absurd rfl (hshort a b rest)

/-- Positions that increase are no more than there is room for. -/
theorem length_le_of_increasing {bound : Nat} (hsorted : ps.Pairwise (· < ·))
    (hbound : ∀ p ∈ ps, p < bound) : ps.length ≤ bound := by
  have hnodup : ps.Nodup := hsorted.imp Nat.ne_of_lt
  have hsub : ps ⊆ List.range bound := fun p hp => List.mem_range.2 (hbound p hp)
  have hle := (hnodup.subperm hsub).length_le
  rwa [List.length_range] at hle

/-! ## Positions as numbers -/

/-- The positions that numbers stand for. -/
def offsets (numbers : List Number) : List Nat := numbers.map fun n => n.toInt.toNat

/-- Numbers that delimit ranges of a file. -/
structure Carvable (d : Bytes) (numbers : List Number) : Prop where
  bounded : ∀ n ∈ numbers, 0 ≤ n.toInt ∧ n.toInt ≤ d.length
  increasing : (numbers.map Number.toInt).Pairwise (· < ·)

variable {numbers : List Number}

theorem Carvable.nonneg (h : Carvable d numbers) : ∀ n ∈ numbers, 0 ≤ n.toInt :=
  fun n hn => (h.bounded n hn).1

theorem length_offsets (numbers : List Number) : (offsets numbers).length = numbers.length :=
  List.length_map _

theorem carvable_iff (hnonneg : ∀ n ∈ numbers, 0 ≤ n.toInt) :
    Carvable d numbers ↔
      (offsets numbers).Pairwise (· < ·) ∧ ∀ p ∈ offsets numbers, p ≤ d.length := by
  rw [offsets, List.pairwise_map, List.forall_mem_map]
  constructor
  · intro h
    constructor
    · apply (List.pairwise_map.1 h.increasing).imp_of_mem
      intro n n' hn hn' hlt
      have hlow := hnonneg n hn
      omega
    · intro n hn
      have hbounded := h.bounded n hn
      omega
  · rintro ⟨hsorted, hwithin⟩
    constructor
    · intro n hn
      have hlow := hnonneg n hn
      have hhigh := hwithin n hn
      omega
    · rw [List.pairwise_map]
      apply hsorted.imp_of_mem
      intro n n' hn hn' hlt
      omega

theorem badRange?_offsets_eq_none_iff (hcount : 2 ≤ numbers.length)
    (hnonneg : ∀ n ∈ numbers, 0 ≤ n.toInt) :
    badRange? d.length (rangesBetween (offsets numbers)) = none ↔ Carvable d numbers := by
  rw [← adjacent_eq_rangesBetween, badRange?_eq_none_iff (by rwa [length_offsets]),
    carvable_iff hnonneg]

theorem Carvable.sorted (h : Carvable d numbers) : (offsets numbers).Pairwise (· < ·) :=
  ((carvable_iff h.nonneg).1 h).1

theorem Carvable.within (h : Carvable d numbers) (hcount : 2 ≤ numbers.length) {q : Nat × Nat}
    (hq : q ∈ rangesBetween (offsets numbers)) : q.1 < q.2 ∧ q.2 ≤ d.length :=
  badRange?_eq_none_iff_forall.1 ((badRange?_offsets_eq_none_iff hcount h.nonneg).2 h) q hq

theorem Carvable.isDelivered {source : Source} (h : Carvable d numbers)
    (hcount : 2 ≤ numbers.length) {q : Nat × Nat} (hq : q ∈ rangesBetween (offsets numbers))
    (hdelivers : source.Delivers q.1 q.2) : source.IsDelivered d q := by
  obtain ⟨hlt, hwithin⟩ := h.within hcount hq
  exact ⟨hlt.le, hwithin, hdelivers⟩

/-- The count of the ranges fits into a number. -/
theorem Carvable.toInt_count (h : Carvable d numbers) (hcount : 2 ≤ numbers.length) :
    (Number.ofNat ((offsets numbers).length - 1) .w64).toInt + 1 = numbers.length := by
  have hword : ∀ p ∈ offsets numbers, p < 2 ^ 64 := by
    intro p hp
    obtain ⟨n, -, rfl⟩ := List.mem_map.1 hp
    have hlt := n.le_toInt_and_toInt_lt.2
    omega
  have hle := length_le_of_increasing h.sorted hword
  rw [length_offsets] at hle ⊢
  have hlt : numbers.length - 1 < 2 ^ 64 := by omega
  have hlt' : numbers.length - 1 < 2 ^ Width.w64.bits := hlt
  rw [Number.ofNat, Number.toInt_ofWord, if_neg Bool.false_ne_true, BitVec.toNat_setWidth,
    BitVec.toNat_ofNat, Nat.mod_eq_of_lt hlt, Nat.mod_eq_of_lt hlt']
  omega

/-! ## Positions as arguments -/

theorem mapM_asOffset_of_nonneg (h : ∀ n ∈ numbers, 0 ≤ n.toInt) :
    (numbers.map Value.number).mapM Value.asOffset = .ok (offsets numbers) := by
  induction numbers with
  | nil => rfl
  | cons n rest ih =>
    obtain ⟨hn, hrest⟩ := List.forall_mem_cons.1 h
    have hoffset : (Value.number n).asOffset = .ok n.toInt.toNat :=
      Environment.asOffset_number (Int.toNat_of_nonneg hn).symm
    rw [List.map_cons, List.mapM_cons, hoffset, ih hrest]
    rfl

/-- The first number that is negative is the fault. -/
theorem mapM_asOffset_of_neg (h : ∃ n ∈ numbers, n.toInt < 0) :
    ∃ fault, (numbers.map Value.number).mapM Value.asOffset = .error (.outOfRange fault) := by
  induction numbers with
  | nil => simp at h
  | cons n rest ih =>
    rw [List.map_cons, List.mapM_cons]
    by_cases hn : n.toInt < 0
    · have hoffset : (Value.number n).asOffset = .error (.outOfRange (.negativeOffset n.toInt)) :=
        if_neg (by omega)
      rw [hoffset]
      exact ⟨_, rfl⟩
    · have hoffset : (Value.number n).asOffset = .ok n.toInt.toNat :=
        Environment.asOffset_number (Int.toNat_of_nonneg (by omega)).symm
      obtain ⟨fault, hfault⟩ := ih (by simpa [hn] using h)
      rw [hoffset, hfault]
      exact ⟨fault, rfl⟩

/-- The arguments of a carving are of the right kinds. -/
theorem check_carve (pre : Bytes) (h : 2 ≤ numbers.length) :
    carve.signature.check "Carve" (.bytes pre :: numbers.map .number) = .ok () := by
  have hmisfit : ∀ (rest : List Number) (k : Nat),
      carve.signature.misfit? (k + 1) (rest.map .number) = none := by
    intro rest
    induction rest with
    | nil => exact fun _ => rfl
    | cons n rest ih =>
      intro k
      have hwanted : carve.signature.wanted (k + 1) = .number := by
        match k with
        | 0 => rfl
        | 1 => rfl
        | k + 2 => rfl
      rw [List.map_cons, Signature.misfit?, hwanted]
      exact ih (k + 1)
  have haccepts :
      carve.signature.accepts (Value.bytes pre :: numbers.map .number).length = true := by
    refine (carve.signature.accepts_iff _).2 ⟨?_, nofun⟩
    rw [List.length_cons, List.length_map]
    exact Nat.succ_le_succ h
  have hfirst : (carve.signature.wanted 0).accepts (Value.bytes pre).kind = true := rfl
  unfold Signature.check
  rw [haccepts, if_pos rfl, Signature.misfit?, hfirst, if_pos rfl, hmisfit]

end RuleScan.Builtin
