import RuleScan.CommandLine.Definition
import RuleScan.Proofs.Reading.Printing
import RuleScan.Proofs.Value.Exact

/-!
# Integers in definitions of globals

The text behind the `=` of a definition stands for an integer if it is written as one, and the
global then has that integer for its value, in a width and with a sign that can hold it.  There
is one exception.  A minus sign is taken off before the digits are read, and what they say is
looked up among the signed numbers before it is negated.  The range of those is not symmetric:
the magnitude of the smallest one is not in it, so the smallest signed number is no number
here, and its text is taken for a byte string.

## Main results

* `read_pair` — a key and a text become the trimmed key and the value of the text.
* `number?_toString` — which integers are read as numbers.
* `read_integer` — the global that is defined by a key and an integer.
-/

namespace RuleScan.CommandLine.Definition

open Text

theorem cutAt_append {c : Char} {before : List Char} (h : c ∉ before) (after : List Char) :
    cutAt c (before ++ c :: after) = some (before, after) := by
  induction before with
  | nil => simp [cutAt]
  | cons d rest ih =>
    rw [List.mem_cons, not_or] at h
    simp [cutAt, Ne.symm h.1, ih h.2]

/-- A definition is cut at its first `=`, whatever the text behind it contains. -/
theorem read_pair {key : String} (hcut : '=' ∉ key.toList) (hkey : trim key ≠ "")
    (text : String) : read (key ++ "=" ++ text) = .ok (trim key, valueOf text) := by
  have hchars : (key ++ "=" ++ text).toList = key.toList ++ '=' :: text.toList := by simp
  have htrimmed : (trimChars key.toList).isEmpty = false := by
    rw [Bool.eq_false_iff, ne_eq, List.isEmpty_iff]
    intro hnil
    exact hkey (by rw [trim, hnil, String.ofList_nil])
  rw [read, hchars, cutAt_append hcut]
  simp [htrimmed, trim]

/-- What reads as a number is neither of the words for booleans. -/
theorem valueOf_of_number? {text : String} {m : Number} (h : number? text.toList = some m) :
    valueOf text = .number m := by
  have hword : ∀ word : String, number? word.toList = none → text ≠ word := by
    rintro word hnone rfl
    rw [hnone] at h
    cases h
  simp [valueOf, hword "true" (by decide), hword "false" (by decide), h]

theorem magnitude?_toDigits {n : Nat} (h : n < 0x10000000000000000) :
    magnitude? (Nat.toDigits 10 n) = some n := by
  have hdigit : ∀ c ∈ Nat.toDigits 10 n, c.isDigit = true := fun c hc =>
    Nat.isDigit_of_mem_toDigits (by decide) (by decide) hc
  have hread := Lexer.readDigits_toDigits h
  generalize hds : Nat.toDigits 10 n = ds at hdigit hread
  -- neither the mark of another radix nor a plus sign is a digit
  unfold magnitude?
  split
  · exact absurd (hdigit 'x' (by simp)) (by decide)
  · exact absurd (hdigit 'X' (by simp)) (by decide)
  · have hplain : readSignedNat 10 0x10000000000000000 ds = readNat 10 0x10000000000000000 ds := by
      unfold readSignedNat
      split
      · exact absurd (hdigit '+' (by simp)) (by decide)
      · rfl
    have hne : ds.isEmpty = false := by
      rw [Bool.eq_false_iff, ne_eq, List.isEmpty_iff, ← hds]
      exact Nat.toDigits_ne_nil
    rw [hplain, readNat, hne, if_neg Bool.false_ne_true, hread]
    rfl

theorem number?_natCast {n : Nat} (h : n < 0x10000000000000000) :
    number? (toString n).toList = some (.literal n) := by
  have hmagnitude := magnitude?_toDigits h
  rw [Nat.toString_eq_ofList_toDigits, String.toList_ofList]
  unfold number?
  split
  · next rest hrest =>
    have hsign : '-' ∈ Nat.toDigits 10 n := hrest ▸ List.mem_cons_self ..
    exact absurd (Nat.isDigit_of_mem_toDigits (by decide) (by decide) hsign) (by decide)
  · rw [hmagnitude]
    rfl

theorem number?_neg {n : Nat} (h : n < 0x10000000000000000) :
    number? ('-' :: Nat.toDigits 10 n) =
      if n < 0x8000000000000000 then some (.ofInt (-(n : Int)) .w64 true) else none := by
  rw [number?, magnitude?_toDigits h]

/-- Eight bytes with a sign hold what they are made from. -/
theorem toInt_ofInt_signed {n : Int} (hlow : -2 ^ 63 ≤ n) (hhigh : n < 2 ^ 63) :
    (Number.ofInt n .w64 true).toInt = n := by
  have hfits : (Number.ofInt 0 .w64 true).Fits n := by
    have hsigned : (Number.ofInt 0 .w64 true).signed = true := rfl
    rw [Number.Fits, if_pos hsigned]
    exact ⟨hlow, hhigh⟩
  exact Number.toInt_wrap_of_fits _ hfits

/-- Every integer that a word of 64 bits can hold reads as a number, but for the smallest. -/
theorem number?_toString {n : Int} (hlow : -2 ^ 63 < n) (hhigh : n < 2 ^ 64) :
    ∃ m, number? (toString n).toList = some m ∧ m.toInt = n := by
  cases n with
  | ofNat k =>
    have hk : k < 0x10000000000000000 := Int.ofNat_lt.1 hhigh
    exact ⟨_, number?_natCast hk, Number.toInt_literal hk⟩
  | negSucc k =>
    have hk : k + 1 < 0x8000000000000000 := by omega
    have hchars : (toString (Int.negSucc k)).toList = '-' :: Nat.toDigits 10 (k + 1) := by
      show ("-" ++ (k + 1).repr).toList = _
      simp [Nat.toList_repr]
    refine ⟨.ofInt (Int.negSucc k) .w64 true, ?_, toInt_ofInt_signed (by omega) (by omega)⟩
    rw [hchars, number?_neg (by omega), if_pos hk]
    rfl

/-- The magnitude of the smallest signed number is looked up before it is negated. -/
theorem valueOf_smallest :
    valueOf (toString (-2 ^ 63 : Int)) = .text (toString (-2 ^ 63 : Int)) := by
  decide

/--
**A global that is defined as an integer has that integer for its value**, in a width and with a
sign that can hold it, if the integer is below 2^64 and not below -2^63.  The only exception is
-2^63 itself, whose text is taken for a byte string.
-/
theorem read_integer {key : String} {n : Int} (hcut : '=' ∉ key.toList) (hkey : trim key ≠ "")
    (hlow : -2 ^ 63 ≤ n) (hhigh : n < 2 ^ 64) :
    ∃ v, read (key ++ "=" ++ toString n) = .ok (trim key, v) ∧
      if n = -2 ^ 63 then v = .text (toString n)
      else ∃ m : Number, v = .number m ∧ m.toInt = n ∧ m.Fits n := by
  refine ⟨valueOf (toString n), read_pair hcut hkey (toString n), ?_⟩
  split
  · next hsmallest => rw [hsmallest, valueOf_smallest]
  · next hother =>
    obtain ⟨m, hm, hvalue⟩ := number?_toString (by omega) hhigh
    exact ⟨m, valueOf_of_number? hm, hvalue, hvalue ▸ m.fits_toInt⟩

theorem read_integer_minusOne :
    '=' ∉ " k ".toList ∧ trim " k " ≠ "" ∧ (-2 ^ 63 : Int) ≤ -1 ∧ (-1 : Int) < 2 ^ 64 ∧
      ∃ v, read (" k " ++ "=" ++ toString (-1 : Int)) = .ok (trim " k ", v) ∧
        if (-1 : Int) = -2 ^ 63 then v = .text (toString (-1 : Int))
        else ∃ m : Number, v = .number m ∧ m.toInt = -1 ∧ m.Fits (-1) :=
  ⟨by decide, by decide, by decide, by decide,
    read_integer (by decide) (by decide) (by decide) (by decide)⟩

/-- The smallest signed number of 64 bits could be held, but it does not become a number. -/
theorem read_smallest :
    read ("k" ++ "=" ++ toString (-2 ^ 63 : Int)) = .ok ("k", .text "-9223372036854775808") ∧
      ¬∃ m, read ("k" ++ "=" ++ toString (-2 ^ 63 : Int)) = .ok ("k", .number m) := by
  have hread : read ("k" ++ "=" ++ toString (-2 ^ 63 : Int)) =
      .ok ("k", .text "-9223372036854775808") := by decide
  refine ⟨hread, ?_⟩
  rintro ⟨m, hm⟩
  rw [hread] at hm
  cases hm

end RuleScan.CommandLine.Definition
