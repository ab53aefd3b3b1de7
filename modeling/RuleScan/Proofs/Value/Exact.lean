import Mathlib.Data.Int.Bitwise
import Mathlib.Data.Int.ModEq
import RuleScan.Value.Basic

/-!
# Arithmetic on numbers is exact modulo the width

Operands of four widths and both signs meet in words of 64 bits, and for most operations
neither the width nor the sign of the right operand is looked at. That does no harm: the
word of a number is its value modulo the length of a word, whatever the width and the sign,
so an operation that respects congruence computes the right low bits, and those are all
that the result keeps.

Every operation is therefore described by one integer. `wrap a z` is the number like `a`
that is congruent to `z` modulo the width of `a`, and a result is `wrap a z` where `z` is
what the operation makes of the exact values. For sums, products and bitwise operations
that is immediate. An amount to shift by that is negative, or a word or more, counts as 64
places or more: no bit is left of a left shift and only the sign of a right shift, as for
the exact power of two. A quotient does not respect congruence, so its divisor has to be
said: the right operand's word, read with the sign of the left.

## Main results

* `eq_wrap_iff` — `wrap a z` is the only number like `a` that is congruent to `z`.
* `shiftLeft_eq_wrap`, `shiftRight_eq_wrap` — shifts by any amount.
* `divide_eq_wrap`, `remainder_eq_wrap` — what is divided by what.
* `arithmetic_exact` — every operation of the language on two numbers.
-/

namespace RuleScan

/-! ## Integers as words -/

namespace Word

variable {n : Nat}

/-- The bits of a word made from an integer are those of its infinite two's complement. -/
theorem getElem_ofInt (z : Int) {i : Nat} (hi : i < n) :
    (BitVec.ofInt n z)[i] = z.testBit i := by
  rw [← BitVec.getLsbD_eq_getElem]
  cases z with
  | ofNat m =>
    simp only [Int.ofNat_eq_natCast, BitVec.ofInt_natCast, BitVec.getLsbD_ofNat, hi, decide_true,
      Bool.true_and]
    rfl
  | negSucc m =>
    simp only [BitVec.ofInt_negSucc_eq_not_ofNat, BitVec.getLsbD_not, BitVec.getLsbD_ofNat, hi,
      decide_true, Bool.true_and]
    rfl

theorem ofInt_toNat (word : BitVec n) : BitVec.ofInt n word.toNat = word := by
  rw [BitVec.ofInt_natCast, BitVec.ofNat_toNat, BitVec.setWidth_eq]

theorem setWidth_ofInt {m : Nat} (h : m ≤ n) (z : Int) :
    (BitVec.ofInt n z).setWidth m = BitVec.ofInt m z := by
  ext i hi
  have hn : i < n := by omega
  rw [BitVec.getElem_setWidth, BitVec.getLsbD_eq_getElem hn, getElem_ofInt, getElem_ofInt]

theorem ofInt_eq_ofInt_iff (x y : Int) :
    BitVec.ofInt n x = BitVec.ofInt n y ↔ x ≡ y [ZMOD 2 ^ n] := by
  have hpos : (0 : Int) < 2 ^ n := Int.pow_pos (by decide)
  have hx := Int.emod_nonneg x hpos.ne'
  have hy := Int.emod_nonneg y hpos.ne'
  rw [← BitVec.toNat_inj, BitVec.toNat_ofInt, BitVec.toNat_ofInt, Int.ModEq]
  push_cast
  omega

theorem ofInt_sub (x y : Int) :
    BitVec.ofInt n (x - y) = BitVec.ofInt n x - BitVec.ofInt n y := by
  rw [Int.sub_eq_add_neg, BitVec.ofInt_add, BitVec.ofInt_neg, BitVec.sub_eq_add_neg]

theorem ofInt_land (x y : Int) :
    BitVec.ofInt n (Int.land x y) = BitVec.ofInt n x &&& BitVec.ofInt n y := by
  ext i hi
  simp [getElem_ofInt]

theorem ofInt_lor (x y : Int) :
    BitVec.ofInt n (Int.lor x y) = BitVec.ofInt n x ||| BitVec.ofInt n y := by
  ext i hi
  simp [getElem_ofInt]

theorem ofInt_xor (x y : Int) :
    BitVec.ofInt n (Int.xor x y) = BitVec.ofInt n x ^^^ BitVec.ofInt n y := by
  ext i hi
  simp [getElem_ofInt]

theorem ofInt_lnot (x : Int) : BitVec.ofInt n (Int.lnot x) = ~~~BitVec.ofInt n x := by
  ext i hi
  simp [getElem_ofInt]

theorem ofInt_mul_two_pow (x : Int) (k : Nat) :
    BitVec.ofInt n (x * 2 ^ k) = BitVec.ofInt n x <<< k := by
  have hpow : BitVec.ofInt n (2 ^ k) = BitVec.twoPow n k := by
    rw [show (2 : Int) ^ k = ((2 ^ k : Nat) : Int) by push_cast; rfl, BitVec.ofInt_natCast]
    apply BitVec.eq_of_toNat_eq
    rw [BitVec.toNat_ofNat, BitVec.toNat_twoPow]
  rw [BitVec.ofInt_mul, hpow, BitVec.shiftLeft_eq_mul_twoPow]

theorem shiftRight_eq_div (x : Int) (k : Nat) : x >>> k = x / 2 ^ k := by
  rw [Int.shiftRight_eq_div_pow]
  push_cast
  rfl

end Word

namespace Number

variable (a b : Number)

/-! ## The number congruent to an integer -/

/-- The number like another that is congruent to an integer modulo the width. -/
def wrap (a : Number) (z : Int) : Number := ofInt z a.width a.signed

@[simp] theorem wrap_wrap (y z : Int) : (a.wrap y).wrap z = a.wrap z := rfl

/-- The values a number of some width and sign can have. -/
def Fits (a : Number) (z : Int) : Prop :=
  if a.signed then -2 ^ (a.width.bits - 1) ≤ z ∧ z < 2 ^ (a.width.bits - 1)
  else 0 ≤ z ∧ z < 2 ^ a.width.bits

theorem toInt_wrap (z : Int) :
    (a.wrap z).toInt =
      if a.signed then z.bmod (2 ^ a.width.bits) else z % 2 ^ a.width.bits := by
  rw [wrap, ofInt, toInt_ofWord, Word.setWidth_ofInt a.width.bits_le]
  cases a.signed with
  | true => simp [BitVec.toInt_ofInt]
  | false =>
    have hpos : (0 : Int) < 2 ^ a.width.bits := Int.pow_pos (by decide)
    simp [Int.emod_nonneg z hpos.ne']

theorem toInt_wrap_modEq (z : Int) : (a.wrap z).toInt ≡ z [ZMOD 2 ^ a.width.bits] := by
  have hcast : ((2 ^ a.width.bits : Nat) : Int) = 2 ^ a.width.bits := by push_cast; rfl
  rw [toInt_wrap, Int.ModEq]
  split
  · rw [← hcast, Int.bmod_emod]
  · exact Int.emod_emod_of_dvd z dvd_rfl

theorem wrap_congr {y z : Int} (h : y ≡ z [ZMOD 2 ^ a.width.bits]) : a.wrap y = a.wrap z := by
  have hlow := (Word.ofInt_eq_ofInt_iff y z).mpr h
  rw [← Word.setWidth_ofInt a.width.bits_le, ← Word.setWidth_ofInt a.width.bits_le] at hlow
  simp only [wrap, ofInt, ofWord, extend, hlow]

/-- Whatever the width and the sign, the word of a number is its value. -/
theorem ofInt_toInt : BitVec.ofInt 64 a.toInt = a.word := by
  unfold toInt
  cases a.signed with
  | true => simp
  | false => simp

theorem withWord_word : a.withWord a.word = a := by
  obtain ⟨width, signed, word, normal⟩ := a
  simp only [withWord, ofWord, normal]

theorem wrap_toInt : a.wrap a.toInt = a := by
  rw [wrap, ofInt, ofInt_toInt]
  exact a.withWord_word

/-- Of the numbers of one width and sign, one is congruent to an integer. -/
theorem eq_wrap_iff (r : Number) (z : Int) :
    r = a.wrap z ↔
      r.width = a.width ∧ r.signed = a.signed ∧ r.toInt ≡ z [ZMOD 2 ^ a.width.bits] := by
  constructor
  · rintro rfl
    exact ⟨rfl, rfl, a.toInt_wrap_modEq z⟩
  · rintro ⟨hwidth, hsigned, hmod⟩
    calc
      r = r.wrap r.toInt := r.wrap_toInt.symm
      _ = a.wrap r.toInt := by rw [wrap, wrap, hwidth, hsigned]
      _ = a.wrap z := a.wrap_congr hmod

theorem fits_toInt : a.Fits a.toInt := by
  have h := toInt_ofWord a.word a.width a.signed
  rw [show ofWord a.word a.width a.signed = a from a.withWord_word] at h
  unfold Fits
  cases hsigned : a.signed with
  | true =>
    rw [hsigned, if_pos rfl] at h
    rw [if_pos rfl, h]
    exact ⟨BitVec.le_toInt _, BitVec.toInt_lt⟩
  | false =>
    rw [hsigned, if_neg Bool.false_ne_true] at h
    rw [if_neg Bool.false_ne_true, h]
    exact ⟨Int.natCast_nonneg _, by exact_mod_cast BitVec.isLt _⟩

theorem toInt_wrap_of_fits {z : Int} (h : a.Fits z) : (a.wrap z).toInt = z := by
  have hpos := a.width.bits_pos
  have hbits : 2 ^ a.width.bits = 2 * 2 ^ (a.width.bits - 1) := by
    rw [← Nat.pow_succ', Nat.succ_eq_add_one, Nat.sub_add_cancel hpos]
  rw [toInt_wrap]
  unfold Fits at h
  split at h
  · rw [if_pos ‹_›]
    apply Int.bmod_eq_of_le_mul_two
    · rw [hbits]
      push_cast
      omega
    · rw [hbits]
      push_cast
      omega
  · rw [if_neg ‹_›, Int.emod_eq_of_lt h.1 h.2]

/-! ## Operations that respect congruence -/

theorem withWord_ofInt (z : Int) : a.withWord (BitVec.ofInt 64 z) = a.wrap z := rfl

/-- An operation on words that respects congruence computes the exact value, wrapped. -/
theorem withWord_eq_wrap {f : BitVec 64 → BitVec 64 → BitVec 64} {g : Int → Int → Int}
    (h : ∀ x y, BitVec.ofInt 64 (g x y) = f (BitVec.ofInt 64 x) (BitVec.ofInt 64 y)) :
    a.withWord (f a.word b.word) = a.wrap (g a.toInt b.toInt) := by
  rw [← withWord_ofInt, h, ofInt_toInt, ofInt_toInt]

theorem neg_eq_wrap : a.withWord (-a.word) = a.wrap (-a.toInt) := by
  rw [← withWord_ofInt, BitVec.ofInt_neg, ofInt_toInt]

theorem complement_eq_wrap : a.withWord (~~~a.word) = a.wrap (Int.lnot a.toInt) := by
  rw [← withWord_ofInt, Word.ofInt_lnot, ofInt_toInt]

/-! ## Shifts -/

/-- The places a shift amount stands for: a negative one shifts a whole word out. -/
def places (b : Number) : Nat := if b.toInt < 0 then 64 else b.toInt.toNat

theorem places_of_nonneg (h : 0 ≤ b.toInt) : b.places = b.toInt.toNat := by
  rw [places, if_neg (by omega)]

theorem shiftAmount?_eq_places :
    b.shiftAmount? = if b.places < 64 then some b.places else none := by
  unfold shiftAmount? places
  by_cases hneg : b.toInt < 0
  · rw [if_neg (by omega), if_pos hneg, if_neg (by omega)]
  · rw [if_neg hneg]
    by_cases hsmall : b.toInt < 64
    · rw [if_pos (by omega), if_pos (by omega)]
    · rw [if_neg (by omega), if_neg (by omega)]

/-- No bit is left of a number that is moved up by a word. -/
theorem wrap_mul_two_pow_of_le (z : Int) {k : Nat} (h : 64 ≤ k) :
    a.wrap (z * 2 ^ k) = a.wrap 0 := by
  apply wrap_congr
  have hdvd : (2 : Int) ^ a.width.bits ∣ 2 ^ k := pow_dvd_pow 2 (a.width.bits_le.trans h)
  exact Int.modEq_zero_iff_dvd.mpr (hdvd.mul_left z)

theorem shiftLeft_eq_wrap : a.shiftLeft b = a.wrap (a.toInt * 2 ^ b.places) := by
  rw [shiftLeft, shiftAmount?_eq_places]
  by_cases h : b.places < 64
  · rw [if_pos h, ← withWord_ofInt, Word.ofInt_mul_two_pow, ofInt_toInt]
  · rw [if_neg h, wrap_mul_two_pow_of_le a _ (by omega)]
    rfl

theorem le_toInt_and_toInt_lt : -2 ^ 64 ≤ a.toInt ∧ a.toInt < 2 ^ 64 := by
  have hlow := BitVec.le_toInt a.word
  have hhigh := BitVec.toInt_lt (x := a.word)
  have hnat := a.word.isLt
  unfold toInt
  split <;> omega

/-- A value moved down by a word or more leaves its sign. -/
theorem toInt_div_two_pow_of_le {k : Nat} (h : 64 ≤ k) :
    a.toInt / 2 ^ k = if a.toInt < 0 then -1 else 0 := by
  obtain ⟨hlow, hhigh⟩ := a.le_toInt_and_toInt_lt
  have hword : (2 : Int) ^ 64 ≤ 2 ^ k := by
    exact_mod_cast Nat.pow_le_pow_right (n := 2) (by decide) h
  have hpos : (0 : Int) < 2 ^ k := Int.pow_pos (by decide)
  split
  · next hneg =>
    have hbelow := Int.ediv_neg_of_neg_of_pos hneg hpos
    have habove : -1 ≤ a.toInt / 2 ^ k := (Int.le_ediv_iff_mul_le hpos).mpr (by omega)
    omega
  · next hnonneg => exact Int.ediv_eq_zero_of_lt (by omega) (by omega)

theorem Fits.div_two_pow {a : Number} {z : Int} (h : a.Fits z) (k : Nat) :
    a.Fits (z / 2 ^ k) := by
  have hpos : (0 : Int) < 2 ^ k := Int.pow_pos (by decide)
  have hbound :
      0 ≤ z ∧ 0 ≤ z / 2 ^ k ∧ z / 2 ^ k ≤ z ∨ z < 0 ∧ z ≤ z / 2 ^ k ∧ z / 2 ^ k < 0 := by
    by_cases hneg : z < 0
    · have hlow : z ≤ z >>> k := Int.le_shiftRight_of_nonpos (by omega)
      rw [Word.shiftRight_eq_div] at hlow
      exact .inr ⟨hneg, hlow, Int.ediv_neg_of_neg_of_pos hneg hpos⟩
    · exact .inl ⟨by omega, Int.ediv_nonneg (by omega) hpos.le, Int.ediv_le_self _ (by omega)⟩
  unfold Fits at h ⊢
  split at h
  · rw [if_pos ‹_›]
    omega
  · rw [if_neg ‹_›]
    omega

/-- What a right shift makes of a word is what the exact division makes of the value. -/
theorem shiftRight_eq_wrap : a.shiftRight b = a.wrap (a.toInt / 2 ^ b.places) := by
  rw [shiftRight, shiftAmount?_eq_places, ← withWord_ofInt]
  congr 1
  by_cases h : b.places < 64
  · rw [if_pos h, ← Word.shiftRight_eq_div]
    unfold toInt
    cases a.signed with
    | true => rfl
    | false =>
      show a.word >>> b.places = BitVec.ofInt 64 ((a.word.toNat : Int) >>> b.places)
      rw [← Int.natCast_shiftRight, ← BitVec.toNat_ushiftRight, Word.ofInt_toNat]
  · rw [if_neg h, toInt_div_two_pow_of_le a (by omega)]
    unfold toInt
    cases a.signed with
    | true =>
      simp only [BitVec.msb_eq_toInt, if_true, decide_eq_true_eq]
      split <;> rfl
    | false =>
      have hnonneg : ¬(a.word.toNat : Int) < 0 := by omega
      simp only [Bool.false_eq_true, if_false, if_neg hnonneg]
      rfl

theorem toInt_shiftRight : (a.shiftRight b).toInt = a.toInt / 2 ^ b.places := by
  rw [shiftRight_eq_wrap, toInt_wrap_of_fits a (a.fits_toInt.div_two_pow _)]

example : ((ofInt (-8) .w32 true).shiftRight (ofInt 0x100000001 .w64 true)).toInt = -1 := by
  decide

/-! ## Division -/

/-- What a number divides by: the other's word, read with its own sign. -/
def divisor (a b : Number) : Int := if a.signed then b.word.toInt else b.word.toNat

theorem ofInt_divisor : BitVec.ofInt 64 (a.divisor b) = b.word := by
  unfold divisor
  cases a.signed with
  | true => simp
  | false => simp

theorem isZero_iff : a.isZero = true ↔ a.toInt = 0 := by
  rw [isZero, beq_iff_eq]
  unfold toInt
  cases a.signed with
  | true => simp [← BitVec.toInt_inj]
  | false => simp [← BitVec.toNat_inj]

theorem divide_eq_wrap (h : b.toInt ≠ 0) :
    a.divide b = some (a.wrap (a.toInt.tdiv (a.divisor b))) := by
  rw [divide, if_neg (by rwa [isZero_iff]), ← withWord_ofInt]
  congr 2
  unfold toInt divisor
  cases a.signed with
  | true =>
    apply BitVec.eq_of_toInt_eq
    simp [BitVec.toInt_sdiv, BitVec.toInt_ofInt]
  | false =>
    show a.word / b.word = BitVec.ofInt 64 ((a.word.toNat : Int).tdiv b.word.toNat)
    rw [← Int.ofNat_tdiv, ← BitVec.toNat_udiv, Word.ofInt_toNat]

theorem remainder_eq_wrap (h : b.toInt ≠ 0) :
    a.remainder b = some (a.wrap (a.toInt.tmod (a.divisor b))) := by
  rw [remainder, if_neg (by rwa [isZero_iff]), ← withWord_ofInt]
  congr 2
  unfold toInt divisor
  cases a.signed with
  | true =>
    rw [if_pos rfl, if_pos rfl, if_pos rfl, ← BitVec.toInt_srem, BitVec.ofInt_toInt]
  | false =>
    show a.word % b.word = BitVec.ofInt 64 ((a.word.toNat : Int).tmod b.word.toNat)
    rw [← Int.ofNat_tmod, ← BitVec.toNat_umod, Word.ofInt_toNat]

example : (ofInt (-128) .w8 true).divide (ofInt (-1) .w32 true) =
    some (ofInt (-128) .w8 true) := by
  decide

/-- The law of division, in the arithmetic of the dividend. -/
theorem quotient_mul_add_remainder :
    a.wrap ((a.wrap ((a.wrap (a.toInt.tdiv (a.divisor b))).toInt * b.toInt)).toInt +
      (a.wrap (a.toInt.tmod (a.divisor b))).toInt) = a := by
  have hdivisor : b.toInt ≡ a.divisor b [ZMOD 2 ^ a.width.bits] := by
    apply (Int.ModEq.of_dvd (pow_dvd_pow 2 a.width.bits_le))
    apply (Word.ofInt_eq_ofInt_iff _ _).mp
    rw [ofInt_toInt, ofInt_divisor]
  refine ((a.eq_wrap_iff a _).mpr ⟨rfl, rfl, ?_⟩).symm
  symm
  calc
    _ ≡ (a.wrap (a.toInt.tdiv (a.divisor b))).toInt * b.toInt +
        a.toInt.tmod (a.divisor b) [ZMOD 2 ^ a.width.bits] :=
      (a.toInt_wrap_modEq _).add (a.toInt_wrap_modEq _)
    _ ≡ a.toInt.tdiv (a.divisor b) * a.divisor b +
        a.toInt.tmod (a.divisor b) [ZMOD 2 ^ a.width.bits] :=
      ((a.toInt_wrap_modEq _).mul hdivisor).add_right _
    _ = a.toInt := Int.tdiv_mul_add_tmod _ _

/-! ## The shape of results -/

/-- A number like another: of its width and sign, extended from its low bits, and in range. -/
structure Alike (a r : Number) : Prop where
  width : r.width = a.width
  signed : r.signed = a.signed
  normal : extend a.width a.signed r.word = r.word
  fits : a.Fits r.toInt

theorem alike_withWord (word : BitVec 64) : a.Alike (a.withWord word) where
  width := rfl
  signed := rfl
  normal := extend_extend _ _ _
  fits := (a.withWord word).fits_toInt

theorem alike_self : a.Alike a := by
  have h := a.alike_withWord a.word
  rwa [withWord_word] at h

theorem alike_of_divide {r : Number} (h : a.divide b = some r) : a.Alike r := by
  unfold divide at h
  split at h
  · cases h
  · cases h
    exact a.alike_withWord _

theorem alike_of_remainder {r : Number} (h : a.remainder b = some r) : a.Alike r := by
  unfold remainder at h
  split at h
  · cases h
  · cases h
    exact a.alike_withWord _

end Number

/-- The relation between exact values that a comparison decides. -/
def Comparison.relation : Comparison → Int → Int → Prop
  | .eq, x, y => x = y
  | .ne, x, y => x ≠ y
  | .lt, x, y => x < y
  | .gt, x, y => x > y
  | .le, x, y => x ≤ y
  | .ge, x, y => x ≥ y

instance Comparison.decidableRelation :
    (c : Comparison) → (x y : Int) → Decidable (c.relation x y)
  | .eq, x, y => inferInstanceAs (Decidable (x = y))
  | .ne, x, y => inferInstanceAs (Decidable (x ≠ y))
  | .lt, x, y => inferInstanceAs (Decidable (x < y))
  | .gt, x, y => inferInstanceAs (Decidable (x > y))
  | .le, x, y => inferInstanceAs (Decidable (x ≤ y))
  | .ge, x, y => inferInstanceAs (Decidable (x ≥ y))

theorem Comparison.holds_compare (c : Comparison) (x y : Int) :
    c.holds (compare x y) = decide (c.relation x y) := by
  rw [Bool.eq_iff_iff, decide_eq_true_iff]
  rcases Int.lt_trichotomy x y with hlt | heq | hgt
  · rw [Int.compare_eq_lt.mpr hlt]
    cases c <;> simp [Comparison.holds, Comparison.relation] <;> omega
  · rw [Int.compare_eq_eq.mpr heq]
    cases c <;> simp [Comparison.holds, Comparison.relation] <;> omega
  · rw [Int.compare_eq_gt.mpr hgt]
    cases c <;> simp [Comparison.holds, Comparison.relation] <;> omega

/-! ## The operations of the language -/

namespace Value

open Number

section

variable {a b : Number}

theorem binary_arithmetic (op : Arithmetic) :
    binary (.arithmetic op) (number a) (number b) = (arithmetic op a b).map number := rfl

theorem eq_some_of_elim_eq_ok {quotient : Option Number} {fault : ValueError} {r : Number}
    (h : quotient.elim (Except.error fault) Except.ok = .ok r) : quotient = some r := by
  cases quotient with
  | none => cases h
  | some q =>
    cases h
    rfl

theorem map_elim_eq_error_iff {quotient : Option Number} {fault : ValueError} :
    (quotient.elim (Except.error fault) Except.ok).map number = .error fault ↔
      quotient = none := by
  cases quotient with
  | none => exact ⟨fun _ => rfl, fun _ => rfl⟩
  | some q => exact ⟨nofun, nofun⟩

/-- An arithmetic operation keeps the width and the sign of its left operand. -/
theorem alike_of_arithmetic {op : Arithmetic} {r : Number} (h : arithmetic op a b = .ok r) :
    a.Alike r := by
  cases op with
  | div => exact alike_of_divide a b (eq_some_of_elim_eq_ok h)
  | rem => exact alike_of_remainder a b (eq_some_of_elim_eq_ok h)
  | add | sub | mul | bitAnd | bitOr | bitXor | shiftLeft | shiftRight =>
    cases h
    exact a.alike_withWord _

theorem alike_of_binary {op : Arithmetic} {v : Value}
    (h : binary (.arithmetic op) (number a) (number b) = .ok v) :
    ∃ r, v = number r ∧ a.Alike r := by
  rw [binary_arithmetic] at h
  cases hr : arithmetic op a b with
  | error fault =>
    rw [hr] at h
    cases h
  | ok r =>
    rw [hr] at h
    cases h
    exact ⟨r, rfl, alike_of_arithmetic hr⟩

theorem alike_of_unary {op : UnaryOp} {r : Number} (h : unary op (number a) = .ok (number r)) :
    a.Alike r := by
  cases op with
  | plus =>
    cases h
    exact a.alike_self
  | neg | bitNot =>
    cases h
    exact a.alike_withWord _
  | not => cases h

/-- One lemma for the operations that compute on words and respect congruence. -/
theorem binary_of_respects {op : Arithmetic} {f : BitVec 64 → BitVec 64 → BitVec 64}
    {g : Int → Int → Int}
    (hop : ∀ a b : Number, arithmetic op a b = .ok (a.withWord (f a.word b.word)))
    (h : ∀ x y, BitVec.ofInt 64 (g x y) = f (BitVec.ofInt 64 x) (BitVec.ofInt 64 y)) :
    binary (.arithmetic op) (number a) (number b) =
      .ok (number (a.wrap (g a.toInt b.toInt))) := by
  rw [binary_arithmetic, hop, withWord_eq_wrap a b h]
  rfl

theorem binary_add : binary (.arithmetic .add) (number a) (number b) =
    .ok (number (a.wrap (a.toInt + b.toInt))) :=
  binary_of_respects (f := (· + ·)) (fun _ _ => rfl) BitVec.ofInt_add

theorem binary_mul : binary (.arithmetic .mul) (number a) (number b) =
    .ok (number (a.wrap (a.toInt * b.toInt))) :=
  binary_of_respects (f := (· * ·)) (fun _ _ => rfl) BitVec.ofInt_mul

theorem binary_shiftLeft : binary (.arithmetic .shiftLeft) (number a) (number b) =
    .ok (number (a.wrap (a.toInt * 2 ^ b.places))) := by
  rw [binary_arithmetic, arithmetic, shiftLeft_eq_wrap]
  rfl

theorem binary_div (h : b.toInt ≠ 0) :
    binary (.arithmetic .div) (number a) (number b) =
      .ok (number (a.wrap (a.toInt.tdiv (a.divisor b)))) := by
  rw [binary_arithmetic, arithmetic, divide_eq_wrap a b h]
  rfl

theorem binary_rem (h : b.toInt ≠ 0) :
    binary (.arithmetic .rem) (number a) (number b) =
      .ok (number (a.wrap (a.toInt.tmod (a.divisor b)))) := by
  rw [binary_arithmetic, arithmetic, remainder_eq_wrap a b h]
  rfl

end

/-- What the operations of the language make of two numbers, in terms of exact values. -/
structure ExactArithmetic (a b : Number) : Prop where
  /-- `wrap a z` is the number like `a` that is congruent to `z` modulo the width. -/
  wrap : ∀ r z, r = a.wrap z ↔
    r.width = a.width ∧ r.signed = a.signed ∧ r.toInt ≡ z [ZMOD 2 ^ (8 * a.width.bytes)]
  add : binary (.arithmetic .add) (.number a) (.number b) =
    .ok (.number (a.wrap (a.toInt + b.toInt)))
  sub : binary (.arithmetic .sub) (.number a) (.number b) =
    .ok (.number (a.wrap (a.toInt - b.toInt)))
  mul : binary (.arithmetic .mul) (.number a) (.number b) =
    .ok (.number (a.wrap (a.toInt * b.toInt)))
  bitAnd : binary (.arithmetic .bitAnd) (.number a) (.number b) =
    .ok (.number (a.wrap (Int.land a.toInt b.toInt)))
  bitOr : binary (.arithmetic .bitOr) (.number a) (.number b) =
    .ok (.number (a.wrap (Int.lor a.toInt b.toInt)))
  bitXor : binary (.arithmetic .bitXor) (.number a) (.number b) =
    .ok (.number (a.wrap (Int.xor a.toInt b.toInt)))
  neg : unary .neg (.number a) = .ok (.number (a.wrap (-a.toInt)))
  bitNot : unary .bitNot (.number a) = .ok (.number (a.wrap (Int.lnot a.toInt)))
  shiftLeft : 0 ≤ b.toInt → binary (.arithmetic .shiftLeft) (.number a) (.number b) =
    .ok (.number (a.wrap (a.toInt * 2 ^ b.toInt.toNat)))
  shiftLeft_negative : b.toInt < 0 →
    ∃ r, binary (.arithmetic .shiftLeft) (.number a) (.number b) = .ok (.number r) ∧ r.toInt = 0
  shiftRight : 0 ≤ b.toInt →
    ∃ r, binary (.arithmetic .shiftRight) (.number a) (.number b) = .ok (.number r) ∧
      r.toInt = a.toInt / 2 ^ b.toInt.toNat
  shiftRight_negative : b.toInt < 0 →
    ∃ r, binary (.arithmetic .shiftRight) (.number a) (.number b) = .ok (.number r) ∧
      r.toInt = if a.toInt < 0 then -1 else 0
  /-- The quotient times the divisor, plus the remainder, is the dividend. -/
  division : b.toInt ≠ 0 → ∃ q r p,
    binary (.arithmetic .div) (.number a) (.number b) = .ok q ∧
    binary (.arithmetic .rem) (.number a) (.number b) = .ok r ∧
    binary (.arithmetic .mul) q (.number b) = .ok p ∧
    binary (.arithmetic .add) p r = .ok (.number a)
  div_fails : binary (.arithmetic .div) (.number a) (.number b) = .error .divisionByZero ↔
    b.toInt = 0
  rem_fails : binary (.arithmetic .rem) (.number a) (.number b) = .error .divisionByZero ↔
    b.toInt = 0
  /-- Every result is a number like the left operand. -/
  binary_alike : ∀ op v, binary (.arithmetic op) (.number a) (.number b) = .ok v →
    ∃ r, v = .number r ∧ a.Alike r
  unary_alike : ∀ op r, unary op (.number a) = .ok (.number r) → a.Alike r
  comparison : ∀ c, binary (.comparison c) (.number a) (.number b) =
    .ok (.bool (decide (c.relation a.toInt b.toInt)))

/--
**Arithmetic is exact modulo the width of the left operand.**  For two numbers of any widths and
signs, every operation is the one on exact integers, brought back into the width and the sign of
the left operand; a right shift and the comparisons are exact as they stand.
-/
theorem arithmetic_exact (a b : Number) : ExactArithmetic a b where
  wrap := a.eq_wrap_iff
  add := binary_add
  sub := binary_of_respects (f := (· - ·)) (fun _ _ => rfl) Word.ofInt_sub
  mul := binary_mul
  bitAnd := binary_of_respects (f := (· &&& ·)) (fun _ _ => rfl) Word.ofInt_land
  bitOr := binary_of_respects (f := (· ||| ·)) (fun _ _ => rfl) Word.ofInt_lor
  bitXor := binary_of_respects (f := (· ^^^ ·)) (fun _ _ => rfl) Word.ofInt_xor
  neg := by
    rw [← neg_eq_wrap]
    rfl
  bitNot := by
    rw [← complement_eq_wrap]
    rfl
  shiftLeft h := by rw [binary_shiftLeft, places_of_nonneg b h]
  shiftLeft_negative h := by
    refine ⟨_, binary_shiftLeft, ?_⟩
    rw [places, if_pos h, wrap_mul_two_pow_of_le a _ (le_refl 64), toInt_wrap]
    simp
  shiftRight h := by
    rw [← places_of_nonneg b h]
    exact ⟨_, rfl, toInt_shiftRight a b⟩
  shiftRight_negative h := by
    refine ⟨_, rfl, ?_⟩
    rw [toInt_shiftRight, places, if_pos h, toInt_div_two_pow_of_le a (le_refl 64)]
  division h := by
    refine ⟨_, _, _, binary_div h, binary_rem h, binary_mul, ?_⟩
    rw [binary_add]
    simp only [wrap_wrap, quotient_mul_add_remainder]
  div_fails := map_elim_eq_error_iff.trans ((a.divide_eq_none_iff b).trans b.isZero_iff)
  rem_fails := map_elim_eq_error_iff.trans ((a.remainder_eq_none_iff b).trans b.isZero_iff)
  binary_alike _ _ h := alike_of_binary h
  unary_alike _ _ h := alike_of_unary h
  comparison c := by
    rw [← Comparison.holds_compare]
    rfl

end Value

end RuleScan
