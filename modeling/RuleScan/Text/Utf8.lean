/-!
# Text as bytes

File contents and rule strings are byte strings; messages, names and paths are
text. This module passes between the two with UTF-8.

Reading is split into steps. A step looks at the lead byte, takes the continuation
bytes it promises, and stops before the first byte that cannot continue the
character. What was taken up to there is one *ill-formed part*: `lossy` writes one
replacement character for it, `decode?` refuses the text.

## Main results

* `step_rest_length_le` — a step never gives bytes back, so reading ends.
* `encode_append` — encoding goes character by character.
-/

namespace RuleScan

/-- A byte string. -/
abbrev Bytes := List UInt8

namespace Utf8

/-! ## Writing -/

/-- The bytes of a list of characters. -/
def encodeChars (cs : List Char) : Bytes := cs.flatMap String.utf8EncodeChar

/-- The bytes of a text. -/
def encode (s : String) : Bytes := encodeChars s.toList

@[simp] theorem encodeChars_nil : encodeChars [] = [] := rfl

theorem encodeChars_append (a b : List Char) :
    encodeChars (a ++ b) = encodeChars a ++ encodeChars b := by
  simp [encodeChars]

theorem encode_append (s t : String) : encode (s ++ t) = encode s ++ encode t := by
  simp [encode, encodeChars_append]

/-! ## Reading -/

/--
What a lead byte promises: its own payload, the number of continuation bytes, and
the range of the first of them, which rules out overlong forms, surrogates and
values beyond the last code point.
-/
structure Lead where
  payload : Nat
  count : Nat
  low : Nat
  high : Nat

/-- Classifies a lead byte; `none` for bytes that begin no character. -/
def lead? (b : Nat) : Option Lead :=
  if b < 0x80 then some ⟨b, 0, 0x80, 0xBF⟩
  else if b < 0xC2 then none
  else if b < 0xE0 then some ⟨b % 32, 1, 0x80, 0xBF⟩
  else if b = 0xE0 then some ⟨0, 2, 0xA0, 0xBF⟩
  else if b = 0xED then some ⟨13, 2, 0x80, 0x9F⟩
  else if b < 0xF0 then some ⟨b % 16, 2, 0x80, 0xBF⟩
  else if b = 0xF0 then some ⟨0, 3, 0x90, 0xBF⟩
  else if b < 0xF4 then some ⟨b % 8, 3, 0x80, 0xBF⟩
  else if b = 0xF4 then some ⟨4, 3, 0x80, 0x8F⟩
  else none

/--
Takes the promised continuation bytes. The result is the code point, or `none` with
everything from the first unfit byte on.
-/
def continuation : Nat → Nat → Nat → Nat → Bytes → Option Nat × Bytes
  | 0, payload, _, _, rest => (some payload, rest)
  | _ + 1, _, _, _, [] => (none, [])
  | count + 1, payload, low, high, b :: rest =>
    if low ≤ b.toNat ∧ b.toNat ≤ high then
      continuation count (payload * 64 + b.toNat % 64) 0x80 0xBF rest
    else (none, b :: rest)

theorem continuation_rest_length_le (count payload low high : Nat) (bytes : Bytes) :
    (continuation count payload low high bytes).2.length ≤ bytes.length := by
  induction count generalizing payload low high bytes with
  | zero => simp [continuation]
  | succ count ih =>
    cases bytes with
    | nil => simp [continuation]
    | cons b rest =>
      simp only [continuation]
      split
      · exact Nat.le_trans (ih _ _ _ rest) (by simp)
      · simp

/-- Reads one character, or skips one ill-formed part, from a byte and what follows it. -/
def step (b : UInt8) (rest : Bytes) : Option Char × Bytes :=
  match lead? b.toNat with
  | none => (none, rest)
  | some l =>
    match continuation l.count l.payload l.low l.high rest with
    | (some code, rest') => (some (Char.ofNat code), rest')
    | (none, rest') => (none, rest')

theorem step_rest_length_le (b : UInt8) (rest : Bytes) : (step b rest).2.length ≤ rest.length := by
  unfold step
  cases lead? b.toNat with
  | none => simp
  | some l =>
    have h := continuation_rest_length_le l.count l.payload l.low l.high rest
    dsimp only
    split <;> simp_all

/-- The characters of a byte string; an ill-formed part yields `none`. -/
def pieces : Bytes → List (Option Char)
  | [] => []
  | b :: rest => (step b rest).1 :: pieces (step b rest).2
termination_by bytes => bytes.length
decreasing_by exact Nat.lt_succ_of_le (step_rest_length_le b rest)

/-- The text of a byte string, with one replacement character for each ill-formed part. -/
def lossy (bytes : Bytes) : String :=
  String.ofList ((pieces bytes).map fun piece => piece.getD '\uFFFD')

/-- The text of a byte string that is well-formed throughout. -/
def decode? (bytes : Bytes) : Option String :=
  ((pieces bytes).mapM id).map String.ofList

end Utf8

end RuleScan
