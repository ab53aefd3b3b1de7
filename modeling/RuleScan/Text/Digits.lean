/-!
# Reading whole numbers

A number is read digit by digit in some radix, below some limit. Three things can
go wrong, and the first that goes wrong is reported: the text has no digit, a
character is no digit of the radix, or the value reaches the limit. A character is
classified before the value it would lead to is compared with the limit.

## Main results

* `readDigits_lt` — what is read is below the limit.
-/

namespace RuleScan.Text

/-- Why a text is no number. -/
inductive DigitError where
  | empty
  | invalid
  | overflow
  deriving DecidableEq, Repr

/-- The wording of a reading failure. -/
def DigitError.message : DigitError → String
  | .empty => "cannot parse integer from empty string"
  | .invalid => "invalid digit found in string"
  | .overflow => "number too large to fit in target type"

/-- The value of a digit or letter, letters counting on from ten. -/
def digitValue? (c : Char) : Option Nat :=
  let n := c.toNat
  if 48 ≤ n ∧ n ≤ 57 then some (n - 48)
  else if 97 ≤ n ∧ n ≤ 122 then some (n - 87)
  else if 65 ≤ n ∧ n ≤ 90 then some (n - 55)
  else none

/-- The value of a character as a digit of a radix. -/
def digitOf? (radix : Nat) (c : Char) : Option Nat :=
  (digitValue? c).filter (· < radix)

/-- Reads digits on top of a value already read. -/
def readDigits (radix limit : Nat) (value : Nat) : List Char → Except DigitError Nat
  | [] => .ok value
  | c :: rest =>
    match digitOf? radix c with
    | none => .error .invalid
    | some d =>
      if value * radix + d < limit then readDigits radix limit (value * radix + d) rest
      else .error .overflow

theorem readDigits_lt {radix limit value n : Nat} {cs : List Char} (h : value < limit)
    (hr : readDigits radix limit value cs = .ok n) : n < limit := by
  induction cs generalizing value with
  | nil => simp only [readDigits, Except.ok.injEq] at hr; omega
  | cons c rest ih =>
    simp only [readDigits] at hr
    cases hd : digitOf? radix c with
    | none => simp [hd] at hr
    | some d =>
      simp only [hd] at hr
      split at hr
      · next hlt => exact ih hlt hr
      · cases hr

/-- Reads a number that must have at least one digit. -/
def readNat (radix limit : Nat) (cs : List Char) : Except DigitError Nat :=
  if cs.isEmpty then .error .empty else readDigits radix limit 0 cs

/-- Reads a number that may carry a plus sign; the sign alone is no number. -/
def readSignedNat (radix limit : Nat) : List Char → Except DigitError Nat
  | '+' :: c :: rest => readDigits radix limit 0 (c :: rest)
  | cs => readNat radix limit cs

/-- The two lower-case hexadecimal digits of a byte. -/
def hexByte (b : UInt8) : List Char :=
  [Nat.digitChar (b.toNat / 16), Nat.digitChar (b.toNat % 16)]

end RuleScan.Text
