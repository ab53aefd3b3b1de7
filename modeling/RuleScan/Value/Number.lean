/-!
# Sized numbers

A number has a width of 1, 2, 4 or 8 bytes and is signed or not. Its bits are kept
in a 64-bit word that always equals its own low bits extended by zeros or by the
sign; the word carries that fact as a proof. An operation computes on whole words
and then extends the low bits of the answer, so every result has the width and sign
of the left operand.

## Main results

* `extend_extend` — extending the low bits is done once and for all.
* `toInt_ofWord` — the value of a number made from a word is read off its low bits.
* `divide_eq_none_iff`, `remainder_eq_none_iff` — only zero cannot divide.
-/

namespace RuleScan

/-- The widths a number can have. -/
inductive Width where
  | w8
  | w16
  | w32
  | w64
  deriving DecidableEq, Repr

namespace Width

/-- The width in bytes. -/
def bytes : Width → Nat
  | w8 => 1
  | w16 => 2
  | w32 => 4
  | w64 => 8

/-- The width in bits. -/
def bits (w : Width) : Nat := 8 * w.bytes

/-- The width that is so many bytes wide. -/
def ofBytes? : Nat → Option Width
  | 1 => some w8
  | 2 => some w16
  | 4 => some w32
  | 8 => some w64
  | _ => none

@[simp] theorem ofBytes?_bytes (w : Width) : ofBytes? w.bytes = some w := by cases w <;> rfl

theorem bits_le (w : Width) : w.bits ≤ 64 := by cases w <;> decide

theorem bits_pos (w : Width) : 0 < w.bits := by cases w <;> decide

end Width

/-- The low bits of a word, extended to a word by zeros or by the sign bit. -/
def extend (width : Width) (signed : Bool) (word : BitVec 64) : BitVec 64 :=
  if signed then (word.setWidth width.bits).signExtend 64
  else (word.setWidth width.bits).setWidth 64

theorem setWidth_extend (width : Width) (signed : Bool) (word : BitVec 64) :
    (extend width signed word).setWidth width.bits = word.setWidth width.bits := by
  have h := width.bits_le
  apply BitVec.eq_of_getLsbD_eq
  intro i hi
  have h64 : i < 64 := by omega
  cases signed with
  | false => simp [extend, hi, h64]
  | true =>
    simp only [extend, if_true, BitVec.getLsbD_setWidth, BitVec.getLsbD_signExtend, hi, h64,
      decide_true, Bool.true_and]

theorem extend_extend (width : Width) (signed : Bool) (word : BitVec 64) :
    extend width signed (extend width signed word) = extend width signed word := by
  have h := setWidth_extend width signed word
  unfold extend at h ⊢
  cases signed <;> simp_all

/-- A whole number of a fixed width. -/
structure Number where
  width : Width
  signed : Bool
  word : BitVec 64
  normal : extend width signed word = word
  deriving DecidableEq

namespace Number

/-- The number with the low bits of a word. -/
def ofWord (word : BitVec 64) (width : Width) (signed : Bool) : Number :=
  ⟨width, signed, extend width signed word, extend_extend width signed word⟩

/-- The number congruent to an integer modulo the width. -/
def ofInt (value : Int) (width : Width) (signed : Bool) : Number :=
  ofWord (BitVec.ofInt 64 value) width signed

/-- An unsigned number. -/
def ofNat (value : Nat) (width : Width) : Number := ofWord (BitVec.ofNat 64 value) width false

/--
The number of a literal: four bytes when they can hold it and eight otherwise, signed
unless only the unsigned form can hold it.
-/
def literal (value : Nat) : Number :=
  if value < 0x80000000 then ofWord (BitVec.ofNat 64 value) .w32 true
  else if value < 0x100000000 then ofWord (BitVec.ofNat 64 value) .w32 false
  else if value < 0x8000000000000000 then ofWord (BitVec.ofNat 64 value) .w64 true
  else ofWord (BitVec.ofNat 64 value) .w64 false

/-- The value of a number. -/
def toInt (n : Number) : Int := if n.signed then n.word.toInt else n.word.toNat

/-- Whether the value is zero. -/
def isZero (n : Number) : Bool := n.word == 0

@[simp] theorem ofWord_width (word : BitVec 64) (w : Width) (s : Bool) :
    (ofWord word w s).width = w := rfl

@[simp] theorem ofWord_signed (word : BitVec 64) (w : Width) (s : Bool) :
    (ofWord word w s).signed = s := rfl

@[simp] theorem ofWord_word (word : BitVec 64) (w : Width) (s : Bool) :
    (ofWord word w s).word = extend w s word := rfl

theorem toInt_ofWord (word : BitVec 64) (w : Width) (s : Bool) :
    (ofWord word w s).toInt =
      if s then (word.setWidth w.bits).toInt else (word.setWidth w.bits).toNat := by
  have h := w.bits_le
  cases s with
  | false =>
    simp only [toInt, ofWord, extend, Bool.false_eq_true, if_false, BitVec.toNat_setWidth]
    congr 1
    exact Nat.mod_eq_of_lt (Nat.lt_of_lt_of_le (Nat.mod_lt _ (Nat.two_pow_pos _))
      (Nat.pow_le_pow_right (by decide) h))
  | true =>
    simp only [toInt, ofWord, extend, if_true]
    exact BitVec.toInt_signExtend_of_le h

/-! ## Operations on words -/

/-- The number of the same width and sign with other bits. -/
def withWord (n : Number) (word : BitVec 64) : Number := ofWord word n.width n.signed

/-- The number of places to shift by, when the word has that many. -/
def shiftAmount? (n : Number) : Option Nat :=
  if 0 ≤ n.toInt ∧ n.toInt < 64 then some n.toInt.toNat else none

/-- A word shifted left; shifting by more than a word, or by less than nothing, clears it. -/
def shiftLeft (a b : Number) : Number :=
  a.withWord (match b.shiftAmount? with | some k => a.word <<< k | none => 0)

/-- A word shifted right, filling with the sign; too large an amount leaves only the fill. -/
def shiftRight (a b : Number) : Number :=
  a.withWord <|
    match a.signed, b.shiftAmount? with
    | true, some k => a.word.sshiftRight k
    | true, none => if a.word.msb then -1 else 0
    | false, some k => a.word >>> k
    | false, none => 0

/-- The quotient, toward zero, with the divisor's word taken in the sign of the dividend. -/
def divide (a b : Number) : Option Number :=
  if b.isZero then none
  else some (a.withWord (if a.signed then a.word.sdiv b.word else a.word / b.word))

/-- The remainder belonging to the quotient. -/
def remainder (a b : Number) : Option Number :=
  if b.isZero then none
  else some (a.withWord (if a.signed then a.word.srem b.word else a.word % b.word))

theorem divide_eq_none_iff (a b : Number) : a.divide b = none ↔ b.isZero := by
  simp [divide]

theorem remainder_eq_none_iff (a b : Number) : a.remainder b = none ↔ b.isZero := by
  simp [remainder]

end Number

end RuleScan
