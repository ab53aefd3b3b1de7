import RuleScan.Text.Blank
import RuleScan.Text.Digits
import RuleScan.Value.Basic

/-!
# Definitions of globals

A global is defined by a text `key=value`. Blanks around the key do not count. The
value is a boolean or a number if it reads as one, and otherwise the text itself.

A number is decimal or, after `0x`, hexadecimal, and may have a minus sign in front.
Without a sign it is below 2^64, with a sign its magnitude is below 2^63.

## Main results

* `cutAt_ok` — what is cut at a character can be put together again.
-/

namespace RuleScan.CommandLine

/-- Why a text defines nothing. -/
inductive DefinitionFault where
  | noEqualsSign (text : String)
  | emptyKey
  deriving DecidableEq, Repr

/-- The wording of a fault in a definition. -/
def DefinitionFault.message : DefinitionFault → String
  | .noEqualsSign text => s!"expected key=value, got '{text}'"
  | .emptyKey => "empty key"

namespace Definition

/-- The characters before the first occurrence of a character, and those after it. -/
def cutAt (c : Char) : List Char → Option (List Char × List Char)
  | [] => none
  | d :: rest => if d = c then some ([], rest) else (cutAt c rest).map fun (a, b) => (d :: a, b)

theorem cutAt_ok {c : Char} {cs before after : List Char} (h : cutAt c cs = some (before, after)) :
    cs = before ++ c :: after ∧ c ∉ before := by
  induction cs generalizing before with
  | nil => cases h
  | cons d rest ih =>
    simp only [cutAt] at h
    split at h
    · next hd =>
      simp only [Option.some.injEq, Prod.mk.injEq] at h
      simp [← h.1, ← h.2, hd]
    · next hd =>
      simp only [Option.map_eq_some_iff, Prod.mk.injEq] at h
      obtain ⟨⟨a, b⟩, hab, rfl, rfl⟩ := h
      have := ih hab
      simp [this.1, this.2, Ne.symm hd]

/-- The magnitude of a number, in digits behind an optional sign for another radix. -/
def magnitude? : List Char → Option Nat
  | '0' :: 'x' :: digits => (Text.readSignedNat 16 0x10000000000000000 digits).toOption
  | '0' :: 'X' :: digits => (Text.readSignedNat 16 0x10000000000000000 digits).toOption
  | digits => (Text.readSignedNat 10 0x10000000000000000 digits).toOption

/-- The number that a text stands for. -/
def number? : List Char → Option Number
  | '-' :: rest =>
    match magnitude? rest with
    | some n => if n < 0x8000000000000000 then some (.ofInt (-(n : Int)) .w64 true) else none
    | none => none
  | cs => (magnitude? cs).map .literal

/-- The value that a text stands for. -/
def valueOf (text : String) : Value :=
  if text = "true" then .bool true
  else if text = "false" then .bool false
  else
    match number? text.toList with
    | some n => .number n
    | none => .text text

/-- The key and the value of a definition. -/
def read (text : String) : Except DefinitionFault (String × Value) :=
  match cutAt '=' text.toList with
  | none => .error (.noEqualsSign text)
  | some (before, after) =>
    let key := Text.trimChars before
    if key.isEmpty then .error .emptyKey
    else .ok (String.ofList key, valueOf (String.ofList after))

end Definition

end RuleScan.CommandLine
