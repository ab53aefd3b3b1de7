import RuleScan.Proofs.Value.Exact

/-!
# Division by a positive number

Dividend and divisor may have different signs, and the sign of the dividend decides how the
word of the divisor is read. An unsigned dividend reads the word of a positive divisor as
its value. A signed one does so below half a word; from there on it reads `b` as `b - 2 ^ 64`,
a negative number, while comparisons go on treating it as `b`.

Reading the divisor wrongly shows only where the dividend reaches it. A dividend is at most
half a word long, so the true quotient by such a divisor is zero, or minus one in one case.
What is computed instead is zero as long as the dividend is shorter than `2 ^ 64 - b`, and
otherwise a number of the wrong sign.

## Main results

* `divisor_of_pos` — what a positive divisor is read as.
* `tdiv_wrap_of_short` — the quotient is the true one where the dividend is short.
* `tdiv_wrap_ne_of_long` — it is not where the dividend is long.
* `division_true_iff` — division by a positive number is true division exactly there.
-/

namespace RuleScan

namespace Number

/-! ## Values between zero and a value -/

/-- A value on the way from zero to another. -/
def IsWithin (y z : Int) : Prop := 0 ≤ y ∧ y ≤ z ∨ z ≤ y ∧ y ≤ 0

/-- Truncation never leaves the width: what lies between zero and a value fits where it does. -/
theorem Fits.of_isWithin {a : Number} {y z : Int} (h : a.Fits z) (hy : IsWithin y z) :
    a.Fits y := by
  have hhalf : (0 : Int) < 2 ^ (a.width.bits - 1) := Int.pow_pos (by decide)
  have hfull : (0 : Int) < 2 ^ a.width.bits := Int.pow_pos (by decide)
  unfold IsWithin at hy
  unfold Fits at h ⊢
  split at h
  · rw [if_pos ‹_›]
    omega
  · rw [if_neg ‹_›]
    omega

theorem isWithin_tdiv (z : Int) {d : Int} (h : 0 < d) : IsWithin (z.tdiv d) z := by
  have hlength := Int.natAbs_tdiv_le_natAbs z d
  by_cases hz : 0 ≤ z
  · have hsign : 0 ≤ z.tdiv d := Int.tdiv_nonneg hz h.le
    left
    omega
  · have hsign : 0 ≤ (-z).tdiv d := Int.tdiv_nonneg (by omega) h.le
    rw [Int.neg_tdiv] at hsign
    right
    omega

theorem isWithin_tmod (z d : Int) : IsWithin (z.tmod d) z := by
  have hlength : (z.tmod d).natAbs ≤ z.natAbs := by
    rw [Int.natAbs_tmod]
    exact Nat.mod_le _ _
  by_cases hz : 0 ≤ z
  · have hsign : 0 ≤ z.tmod d := Int.tmod_nonneg d hz
    left
    omega
  · have hsign : 0 ≤ (-z).tmod d := Int.tmod_nonneg d (by omega)
    rw [Int.neg_tmod] at hsign
    right
    omega

theorem tdiv_eq_zero_iff {z d : Int} (h : d ≠ 0) : z.tdiv d = 0 ↔ z.natAbs < d.natAbs := by
  rw [← Int.sign_eq_zero_iff_zero, Int.sign_tdiv]
  split
  · next hshort => exact ⟨fun _ => hshort, fun _ => rfl⟩
  · next hlong =>
    have hz : z.sign ≠ 0 := by
      rw [Ne, Int.sign_eq_zero_iff_zero]
      omega
    have hd : d.sign ≠ 0 := by rwa [Ne, Int.sign_eq_zero_iff_zero]
    exact ⟨fun hzero => absurd hzero (Int.mul_ne_zero hz hd), fun hshort => absurd hshort hlong⟩

/-! ## What a positive number divides as -/

variable {a b : Number}

theorem toNat_word_of_pos (h : 0 < b.toInt) : (b.word.toNat : Int) = b.toInt := by
  have hword := b.word.isLt
  have hread := BitVec.toInt_eq_toNat_cond b.word
  unfold toInt at h ⊢
  split
  · next hsigned =>
    rw [if_pos hsigned] at h
    split at hread <;> omega
  · rfl

/-- A signed dividend reads a divisor of half a word or more as a negative number. -/
theorem divisor_of_pos (h : 0 < b.toInt) :
    a.divisor b =
      if a.signed = true ∧ 2 ^ 63 ≤ b.toInt then b.toInt - 2 ^ 64 else b.toInt := by
  have hvalue := toNat_word_of_pos h
  unfold divisor
  cases a.signed with
  | false =>
    rw [if_neg Bool.false_ne_true, if_neg (by simp)]
    exact hvalue
  | true =>
    rw [if_pos rfl, BitVec.toInt_eq_toNat_cond]
    simp only [true_and]
    split <;> split <;> omega

theorem natAbs_toInt_le_of_signed (h : a.signed = true) : a.toInt.natAbs ≤ 2 ^ 63 := by
  have hlow := BitVec.le_toInt a.word
  have hhigh := BitVec.toInt_lt (x := a.word)
  unfold toInt
  rw [if_pos h]
  omega

/-- A dividend that a divisor read with the sign of the dividend does not reach. -/
def IsShort (a b : Number) : Prop :=
  a.signed = true → (a.toInt.natAbs : Int) + b.toInt < 2 ^ 64

instance : Decidable (IsShort a b) := inferInstanceAs (Decidable (_ → _))

theorem isShort_iff :
    IsShort a b ↔ a.signed = false ∨ (a.toInt.natAbs : Int) + b.toInt < 2 ^ 64 := by
  unfold IsShort
  cases a.signed <;> simp

/-- What a short dividend is divided by is the divisor, or has no part in the dividend either. -/
theorem divisor_of_short (h : 0 < b.toInt) (hshort : IsShort a b) :
    a.divisor b = b.toInt ∨
      a.toInt.tdiv (a.divisor b) = 0 ∧ a.toInt.tdiv b.toInt = 0 := by
  rw [divisor_of_pos h]
  split
  · next hturned =>
    have hsum := hshort hturned.1
    right
    constructor
    · rw [tdiv_eq_zero_iff (by omega)]
      omega
    · rw [tdiv_eq_zero_iff (by omega)]
      omega
  · left
    rfl

theorem tdiv_divisor_of_short (h : 0 < b.toInt) (hshort : IsShort a b) :
    a.toInt.tdiv (a.divisor b) = a.toInt.tdiv b.toInt := by
  cases divisor_of_short h hshort with
  | inl hsame => rw [hsame]
  | inr hzero => rw [hzero.1, hzero.2]

theorem tdiv_wrap_of_short (h : 0 < b.toInt) (hshort : IsShort a b) :
    (a.wrap (a.toInt.tdiv (a.divisor b))).toInt = a.toInt.tdiv b.toInt := by
  rw [tdiv_divisor_of_short h hshort]
  apply toInt_wrap_of_fits
  exact a.fits_toInt.of_isWithin (isWithin_tdiv _ h)

/-- A remainder is within the dividend whatever the divisor, so it is never wrapped. -/
theorem toInt_tmod_wrap (d : Int) : (a.wrap (a.toInt.tmod d)).toInt = a.toInt.tmod d :=
  toInt_wrap_of_fits a (a.fits_toInt.of_isWithin (isWithin_tmod _ d))

theorem tmod_wrap_of_short (h : 0 < b.toInt) (hshort : IsShort a b) :
    (a.wrap (a.toInt.tmod (a.divisor b))).toInt =
      a.toInt - b.toInt * a.toInt.tdiv b.toInt := by
  rw [toInt_tmod_wrap, Int.tmod_def, tdiv_divisor_of_short h hshort]
  cases divisor_of_short h hshort with
  | inl hsame => rw [hsame]
  | inr hzero => rw [hzero.2, Int.mul_zero, Int.mul_zero]

/-- The true quotient of a signed dividend by a divisor of half a word or more. -/
theorem natAbs_tdiv_le_one (hsigned : a.signed = true) (h : 2 ^ 63 ≤ b.toInt) :
    (a.toInt.tdiv b.toInt).natAbs ≤ 1 := by
  have hlength := natAbs_toInt_le_of_signed hsigned
  rw [Int.natAbs_tdiv]
  apply Nat.div_le_of_le_mul
  omega

/--
Negating one of two values on the way to a signed number makes their signs differ, and wrapping
does not undo that: if the other value is at most one long, the two are less than the width apart.
-/
theorem toInt_wrap_neg_ne (hsigned : a.signed = true) {y z : Int} (hy : IsWithin y a.toInt)
    (hnonzero : y ≠ 0) (hz : IsWithin z a.toInt) (hsmall : z.natAbs ≤ 1) :
    (a.wrap (-y)).toInt ≠ z := by
  have hfits := a.fits_toInt
  have hhalf : (2 : Int) ≤ 2 ^ (a.width.bits - 1) := by cases a.width <;> decide
  have hdouble : (2 : Int) ^ a.width.bits = 2 * 2 ^ (a.width.bits - 1) := by
    cases a.width <;> decide
  unfold Fits at hfits
  rw [if_pos hsigned] at hfits
  unfold IsWithin at hy hz
  intro heq
  have hmod := a.toInt_wrap_modEq (-y)
  rw [heq] at hmod
  have hsum := Int.eq_zero_of_dvd_of_natAbs_lt_natAbs hmod.dvd (by omega)
  omega

/-- The computed quotient of a long dividend is not zero, and it has the wrong sign. -/
theorem tdiv_wrap_ne_of_long (h : 0 < b.toInt) (hlong : ¬IsShort a b) :
    (a.wrap (a.toInt.tdiv (a.divisor b))).toInt ≠ a.toInt.tdiv b.toInt := by
  obtain ⟨hsigned, hsum⟩ : a.signed = true ∧ 2 ^ 64 ≤ (a.toInt.natAbs : Int) + b.toInt := by
    rw [IsShort, Classical.not_imp] at hlong
    exact ⟨hlong.1, by omega⟩
  have hlength := natAbs_toInt_le_of_signed hsigned
  have hturned : a.divisor b = -(2 ^ 64 - b.toInt) := by
    rw [divisor_of_pos h, if_pos ⟨hsigned, by omega⟩]
    omega
  have hword := b.le_toInt_and_toInt_lt
  have hpos : 0 < 2 ^ 64 - b.toInt := by omega
  have hnonzero : a.toInt.tdiv (2 ^ 64 - b.toInt) ≠ 0 := by
    rw [Ne, tdiv_eq_zero_iff hpos.ne']
    omega
  rw [hturned, Int.tdiv_neg]
  exact toInt_wrap_neg_ne hsigned (isWithin_tdiv _ hpos) hnonzero (isWithin_tdiv _ h)
    (natAbs_tdiv_le_one hsigned (by omega))

/-- The largest number there is; it is unsigned. -/
def largest : Number := ofNat 0xFFFFFFFFFFFFFFFF .w64

end Number

namespace Value

open Number

/-- A quotient and a remainder that are the true ones: the quotient rounded toward zero. -/
structure IsTrueDivision (a b q r : Number) : Prop where
  quotient : q.toInt = a.toInt.tdiv b.toInt
  remainder : r.toInt = a.toInt - b.toInt * a.toInt.tdiv b.toInt

/--
**Division by a positive number is true division wherever the dividend is short.**  Both
operations succeed; they yield the quotient toward zero and its remainder exactly if the dividend
is unsigned or its length and the divisor together stay below the length of a word.
-/
theorem division_true_iff (a b : Number) (h : 0 < b.toInt) :
    ∃ q r,
      binary (.arithmetic .div) (.number a) (.number b) = .ok (.number q) ∧
      binary (.arithmetic .rem) (.number a) (.number b) = .ok (.number r) ∧
      (IsTrueDivision a b q r ↔
        a.signed = false ∨ (a.toInt.natAbs : Int) + b.toInt < 2 ^ 64) := by
  refine ⟨_, _, binary_div h.ne', binary_rem h.ne', ?_⟩
  rw [← isShort_iff]
  constructor
  · intro htrue
    by_contra hlong
    exact tdiv_wrap_ne_of_long h hlong htrue.quotient
  · intro hshort
    exact ⟨tdiv_wrap_of_short h hshort, tmod_wrap_of_short h hshort⟩

theorem division_true_iff_largest :
    0 < largest.toInt ∧ ∃ q r,
      binary (.arithmetic .div) (.number (literal 10)) (.number largest) = .ok (.number q) ∧
      binary (.arithmetic .rem) (.number (literal 10)) (.number largest) = .ok (.number r) ∧
      (IsTrueDivision (literal 10) largest q r ↔
        (literal 10).signed = false ∨
          ((literal 10).toInt.natAbs : Int) + largest.toInt < 2 ^ 64) :=
  ⟨by decide, division_true_iff (literal 10) largest (by decide)⟩

/-- Ten is less than the largest number and yet divides by it to minus ten. -/
theorem binary_div_ten_largest :
    binary (.comparison .lt) (.number (literal 10)) (.number largest) = .ok (.bool true) ∧
    binary (.arithmetic .div) (.number (literal 10)) (.number largest) =
      .ok (.number ((literal 10).wrap (-10))) ∧
    ((literal 10).wrap (-10)).toInt = -10 ∧
    (literal 10).toInt.tdiv largest.toInt = 0 := by
  decide

end Value

end RuleScan
