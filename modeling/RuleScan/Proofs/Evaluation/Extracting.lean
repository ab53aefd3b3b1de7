import Mathlib.Data.List.TakeWhile
import Mathlib.Data.Nat.Digits.Lemmas
import RuleScan.Evaluation
import RuleScan.Proofs.Evaluation.Step

/-!
# Extracts

An extract names a range of the current file and yields what the bytes there stand for.  What
that is can be said without the steps of the evaluator: bytes are digits to the base 256, the
most significant first, and two's complement takes away a whole round from those in the upper
half.  Byte order is a matter of reversing the digits, so a little-endian number is the
big-endian number of the reversed bytes.

A text that ends at a zero byte is the longest beginning of its range without one.  The range
ends with the file, so the search for the zero byte never leaves it.

Positions are natural numbers here, so a range that begins near the end of what a word can
count is beyond the end of the file and does not wrap around to its beginning.

## Main results

* `wordOfBytes_eq` — the number that is put together byte by byte.
* `toInt_ofWord_wordOfBytes` — a number of some width and sign has the value of its bytes.
* `isTerminated_takeWhile` — where a text ends.
* `Environment.evaluateNode_extract_exact` — what an extract of each format yields.
-/

namespace RuleScan

/-! ## The integers that bytes stand for -/

namespace Bytes

/-- The integer that bytes stand for, the most significant first. -/
def toNat (b : Bytes) : Nat := Nat.ofDigits 256 (b.reverse.map UInt8.toNat)

/-- The integer that bytes stand for in two's complement, the most significant first. -/
def toInt (b : Bytes) : Int :=
  if 2 * b.toNat < 256 ^ b.length then b.toNat else b.toNat - 256 ^ b.length

theorem toNat_lt (b : Bytes) : b.toNat < 256 ^ b.length := by
  have hdigits : ∀ x ∈ b.reverse.map UInt8.toNat, x < 256 := by
    intro x hx
    obtain ⟨byte, -, rfl⟩ := List.mem_map.1 hx
    exact byte.toNat_lt
  have h := Nat.ofDigits_lt_base_pow_length (by decide) hdigits
  rwa [List.length_map, List.length_reverse] at h

theorem toNat_concat (b : Bytes) (byte : UInt8) :
    toNat (b ++ [byte]) = b.toNat * 256 + byte.toNat := by
  simp only [toNat, List.reverse_append, List.reverse_singleton, List.singleton_append,
    List.map_cons, Nat.ofDigits_cons]
  omega

end Bytes

namespace Environment

/-- Putting the bytes together from the left makes the digits of the number. -/
theorem wordOfBytes_eq (b : Bytes) : wordOfBytes b = b.toNat := by
  induction b using List.reverseRecOn with
  | nil => rfl
  | append_singleton b byte ih =>
      rw [Bytes.toNat_concat, ← ih, wordOfBytes, List.foldl_append]
      rfl

/-- Bytes that fill a width keep their value in it. -/
theorem toInt_ofWord_wordOfBytes {w : Width} {b : Bytes} (h : b.length = w.bytes)
    (signed : Bool) :
    (Number.ofWord (BitVec.ofNat 64 (wordOfBytes b)) w signed).toInt =
      if signed then b.toInt else b.toNat := by
  have hbits : 256 ^ b.length = 2 ^ w.bits := by
    rw [h, Width.bits, Nat.pow_mul]
  have hlt := b.toNat_lt
  have hword : 2 ^ w.bits ≤ 2 ^ 64 := Nat.pow_le_pow_right (by decide) w.bits_le
  have hlow : ((BitVec.ofNat 64 (wordOfBytes b)).setWidth w.bits).toNat = b.toNat := by
    rw [wordOfBytes_eq, BitVec.toNat_setWidth, BitVec.toNat_ofNat, Nat.mod_eq_of_lt (by omega),
      Nat.mod_eq_of_lt (by omega)]
  rw [Number.toInt_ofWord]
  cases signed with
  | false => simp only [Bool.false_eq_true, if_false, hlow]
  | true =>
    have hround : (256 : Int) ^ b.length = (2 ^ w.bits : Nat) := by exact_mod_cast hbits
    rw [if_pos rfl, if_pos rfl, BitVec.toInt_eq_toNat_cond, hlow, Bytes.toInt, hround, hbits]

end Environment

/-! ## The text before a zero byte -/

/-- The longest beginning of some bytes that has no zero byte. -/
structure IsTerminated (text bytes : Bytes) : Prop where
  begins : text <+: bytes
  free : 0 ∉ text
  longest : ∀ other, other <+: bytes → 0 ∉ other → other.length ≤ text.length

theorem isTerminated_takeWhile (bytes : Bytes) :
    IsTerminated (bytes.takeWhile (· ≠ 0)) bytes where
  begins := List.takeWhile_prefix _
  free hzero := by
    have h := List.mem_takeWhile_imp hzero
    simp at h
  longest other hother hfree := by
    obtain ⟨rest, rfl⟩ := hother
    have hall : ∀ byte ∈ other, decide (byte ≠ 0) = true := by
      intro byte hbyte
      rw [decide_eq_true_iff]
      rintro rfl
      exact hfree hbyte
    rw [List.takeWhile_append_of_pos hall, List.length_append]
    omega

namespace Source

theorem piece_eq_extract (d : Bytes) (offset length : Nat) :
    piece d offset length = d.extract offset (offset + length) := by
  rw [List.extract_eq_take_drop, Nat.add_sub_cancel_left, piece]

theorem length_extract {d : Bytes} {offset length : Nat} (h : offset + length ≤ d.length) :
    (d.extract offset (offset + length)).length = length := by
  rw [List.extract_eq_take_drop, List.length_take, List.length_drop]
  omega

/-- The piece that ends with the file at the latest. -/
theorem piece_min (d : Bytes) (offset limit : Nat) :
    piece d offset (min limit (d.length - offset)) = piece d offset limit := by
  unfold piece
  rw [← List.length_drop, List.take_eq_take_min, Nat.min_assoc, Nat.min_self]
  rw [← List.take_eq_take_min]

theorem readTerminated_ofFile (name : String) (d : Bytes) (offset limit : Nat) :
    (ofFile name d).readTerminated offset limit =
      if offset ≤ d.length then .ok ((piece d offset limit).takeWhile (· ≠ 0))
      else .error (.outOfRange (.offsetPast offset d.length)) := by
  unfold readTerminated
  by_cases h : offset ≤ d.length
  · have hread : (ofFile name d).read offset (min limit (d.length - offset)) =
        .ok (piece d offset limit) := by
      rw [read_ofFile, if_pos (by omega), piece_min]
    rw [if_neg (by simpa [ofFile, claiming] using h), if_pos h]
    show (ofFile name d).read offset (min limit (d.length - offset)) >>= _ = _
    rw [hread]
    rfl
  · rw [if_pos (by simpa [ofFile, claiming] using h), if_neg h]
    rfl

end Source

/-! ## Extracts of a file -/

/-- The sizes that a number can have. -/
def IsWidth (size : Nat) : Prop := size = 1 ∨ size = 2 ∨ size = 4 ∨ size = 8

theorem exists_ofBytes? {size : Nat} (h : IsWidth size) :
    ∃ w : Width, Width.ofBytes? size = some w ∧ w.bytes = size := by
  rcases h with rfl | rfl | rfl | rfl
  · exact ⟨.w8, rfl, rfl⟩
  · exact ⟨.w16, rfl, rfl⟩
  · exact ⟨.w32, rfl, rfl⟩
  · exact ⟨.w64, rfl, rfl⟩

theorem ofBytes?_eq_none {size : Nat} (h : ¬ IsWidth size) : Width.ofBytes? size = none := by
  unfold IsWidth at h
  unfold Width.ofBytes?
  split
  · omega
  · omega
  · omega
  · omega
  · rfl

/-- Whether the nearest value under a key is a certain truth value. -/
def Register.Says (m : Register) (key : String) (b : Bool) : Prop := m.get? key = some (.bool b)

instance (m : Register) (key : String) (b : Bool) : Decidable (m.Says key b) :=
  inferInstanceAs (Decidable (m.get? key = some (.bool b)))

/-- The bytes of a range as the byte order of the metadata has them, most significant first. -/
def orderedBytes (m : Register) (b : Bytes) : Bytes :=
  if m.Says "bigendian" false then b.reverse else b

/--
What the extracts of a range of a byte string yield, one for each format: a number with the
value of the bytes, the bytes themselves, or the bytes before a zero byte.
-/
structure ExtractsExactly (d : Bytes) (offset size : Nat) (m : Register)
    (outcome : ExtractFormat → Except Error Value) : Prop where
  number : IsWidth size → offset + size ≤ d.length → ∃ n,
    outcome .number = .ok (.number n) ∧ n.width.bytes = size ∧
    n.signed = decide (m.Says "signed" true) ∧
    n.toInt = if m.Says "signed" true
      then (orderedBytes m (d.extract offset (offset + size))).toInt
      else (orderedBytes m (d.extract offset (offset + size))).toNat
  number_width : ¬ IsWidth size → outcome .number = .error (.invalidWidth size)
  number_range : IsWidth size → d.length < offset + size →
    ∃ fault, outcome .number = .error (.outOfRange fault)
  string : offset + size ≤ d.length →
    outcome .string = .ok (.bytes (d.extract offset (offset + size)))
  string_range : d.length < offset + size → ∃ fault, outcome .string = .error (.outOfRange fault)
  stringz : offset ≤ d.length → ∃ text, outcome .stringz = .ok (.bytes text) ∧
    IsTerminated text (d.extract offset (min (offset + size) d.length))
  stringz_range : d.length < offset → ∃ fault, outcome .stringz = .error (.outOfRange fault)

/-! ## Extracts as steps -/

namespace Step

variable {α β : Type} {s : Session} {offset length : Nat}

theorem read_eq : read offset length s = ofExcept (s.source.read offset length) s := by
  unfold read
  cases s.source.read offset length <;> rfl

theorem readTerminated_eq :
    readTerminated offset length s = ofExcept (s.source.readTerminated offset length) s := by
  unfold readTerminated
  cases s.source.readTerminated offset length <;> rfl

/-- What is made of the result of a step that leaves the session alone. -/
theorem bind_pure_of_ofExcept {t : Step α} {r : Except Error α} (h : t s = ofExcept r s)
    (f : α → β) : (t >>= fun a => pure (f a)) s = ofExcept (r.map f) s := by
  cases r with
  | ok a => exact bind_of_ok h _
  | error e => exact bind_of_error h _

theorem outcome_ofExcept {t : Step α} {r : Except Error α} {s' : Session}
    (h : t s = ofExcept r s') : t.outcome s = r := by
  cases r with
  | ok a => exact outcome_of_ok h
  | error e => exact outcome_of_error h

theorem after_ofExcept {t : Step α} {r : Except Error α} {s' : Session}
    (h : t s = ofExcept r s') : t.after s = s' := by
  cases r with
  | ok a => exact after_of_ok h
  | error e => exact after_of_error h

end Step

namespace Environment

variable {env : Environment} {eval : Expr → Step Value} {o z : Expr} {a b : Number}
  {offset size : Nat} {m : Register} {s s₁ s₂ : Session}

/-- What an extract makes of the bytes of a source. -/
def extracted (source : Source) (offset size : Nat) (m : Register) :
    ExtractFormat → Except Error Value
  | .number =>
    match Width.ofBytes? size with
    | none => .error (.invalidWidth size)
    | some w => (source.read offset w.bytes).map (numberOfBytes w m)
  | .string => (source.read offset size).map .bytes
  | .stringz => (source.readTerminated offset size).map .bytes

theorem extract_eq (format : ExtractFormat) (s : Session) :
    extract format offset size m s =
      Step.ofExcept (extracted s.source offset size m format) s := by
  cases format with
  | number =>
    unfold extract extractNumber extracted
    cases Width.ofBytes? size with
    | none => rfl
    | some w => exact Step.bind_pure_of_ofExcept Step.read_eq _
  | string => exact Step.bind_pure_of_ofExcept Step.read_eq _
  | stringz => exact Step.bind_pure_of_ofExcept Step.readTerminated_eq _

theorem asOffset_number {n : Number} {k : Nat} (h : n.toInt = k) :
    (Value.number n).asOffset = .ok k := by
  show (if 0 ≤ n.toInt then _ else _) = _
  rw [h, if_pos (Int.natCast_nonneg k), Int.toNat_natCast]

/-- The offset and the size of an extract are evaluated before anything is read. -/
theorem evaluateNode_extract_of_ok (ho : eval o s = .ok (.number a) s₁)
    (hz : eval z s₁ = .ok (.number b) s₂) (ha : a.toInt = offset) (hb : b.toInt = size)
    (format : ExtractFormat) :
    env.evaluateNode eval (.extract format o z m) s =
      Step.ofExcept (extracted s₂.source offset size m format) s₂ := by
  show (eval o >>= fun v => Step.ofValue v.asOffset >>= fun i =>
    eval z >>= fun w => Step.ofValue w.asOffset >>= fun j => extract format i j m) s = _
  rw [Step.bind_of_ok ho, asOffset_number ha]
  show (eval z >>= fun w => Step.ofValue w.asOffset >>= fun j => extract format offset j m) s₁ = _
  rw [Step.bind_of_ok hz, asOffset_number hb]
  exact extract_eq format s₂

/-! ## Extracts of a whole file -/

variable {name : String} {d : Bytes}

theorem read_ofFile_of_le {length : Nat} (h : offset + length ≤ d.length) :
    (Source.ofFile name d).read offset length = .ok (d.extract offset (offset + length)) := by
  rw [Source.read_ofFile, if_pos h, Source.piece_eq_extract]

theorem read_ofFile_of_lt {length : Nat} (h : d.length < offset + length) :
    (Source.ofFile name d).read offset length =
      .error (.outOfRange (.readPast length offset d.length)) := by
  rw [Source.read_ofFile, if_neg (by omega)]

/-- A flag has its default unless the register says otherwise. -/
theorem bool?_getD_eq (m : Register) (key : String) (default : Bool) :
    (m.bool? key).getD default = if m.Says key (!default) then !default else default := by
  by_cases h : m.Says key (!default)
  · have hvalue : m.get? key = some (.bool !default) := h
    rw [if_pos h, Register.bool?, hvalue]
    rfl
  · rw [if_neg h, Register.bool?]
    split
    · next b hb =>
      have hne : b ≠ !default := fun heq => h (heq ▸ hb)
      show b = default
      revert hne
      cases b <;> cases default <;> decide
    · rfl

theorem numberOfBytes_eq (w : Width) (m : Register) (bytes : Bytes) :
    numberOfBytes w m bytes = .number (.ofWord
      (BitVec.ofNat 64 (wordOfBytes (orderedBytes m bytes))) w
      (decide (m.Says "signed" true))) := by
  have horder : (if (m.bool? "bigendian").getD true then bytes else bytes.reverse) =
      orderedBytes m bytes := by
    rw [bool?_getD_eq, orderedBytes]
    by_cases h : m.Says "bigendian" false
    · simp [h]
    · simp [h]
  have hsign : (m.bool? "signed").getD false = decide (m.Says "signed" true) := by
    rw [bool?_getD_eq]
    by_cases h : m.Says "signed" true
    · simp [h]
    · simp [h]
  rw [numberOfBytes, horder, hsign]

theorem length_orderedBytes (m : Register) (bytes : Bytes) :
    (orderedBytes m bytes).length = bytes.length := by
  unfold orderedBytes
  split
  · exact List.length_reverse
  · rfl

theorem extractsExactly_ofFile (name : String) (d : Bytes) (offset size : Nat) (m : Register) :
    ExtractsExactly d offset size m (extracted (.ofFile name d) offset size m) where
  number hwidth hrange := by
    obtain ⟨w, hw, rfl⟩ := exists_ofBytes? hwidth
    rw [extracted, hw]
    dsimp only
    rw [read_ofFile_of_le hrange]
    refine ⟨_, congrArg Except.ok (numberOfBytes_eq _ _ _), rfl, rfl, ?_⟩
    rw [toInt_ofWord_wordOfBytes ((length_orderedBytes _ _).trans (Source.length_extract hrange))]
    simp only [decide_eq_true_eq]
  number_width hwidth := by rw [extracted, ofBytes?_eq_none hwidth]
  number_range hwidth hrange := by
    obtain ⟨w, hw, rfl⟩ := exists_ofBytes? hwidth
    rw [extracted, hw]
    dsimp only
    rw [read_ofFile_of_lt hrange]
    exact ⟨_, rfl⟩
  string hrange := by
    rw [extracted, read_ofFile_of_le hrange]
    rfl
  string_range hrange := by
    rw [extracted, read_ofFile_of_lt hrange]
    exact ⟨_, rfl⟩
  stringz hrange := by
    rw [extracted, Source.readTerminated_ofFile, if_pos hrange]
    refine ⟨_, rfl, ?_⟩
    have hlength : min (offset + size) d.length - offset = min size (d.length - offset) := by
      omega
    rw [List.extract_eq_take_drop, hlength, ← Source.piece_min]
    exact isTerminated_takeWhile _
  stringz_range hrange := by
    rw [extracted, Source.readTerminated_ofFile, if_neg (by omega)]
    exact ⟨_, rfl⟩

/-- A number in the opposite byte order is the number of the reversed bytes. -/
theorem extracted_reverse {name' : String} {m' : Register} (h : offset + size ≤ d.length)
    (hlittle : m.Says "bigendian" false) (hbig : ¬ m'.Says "bigendian" false)
    (hsigned : m'.get? "signed" = m.get? "signed") :
    extracted (.ofFile name' (d.extract offset (offset + size)).reverse) 0 size m' .number =
      extracted (.ofFile name d) offset size m .number := by
  by_cases hwidth : IsWidth size
  · obtain ⟨w, hw, rfl⟩ := exists_ofBytes? hwidth
    have hlength : (d.extract offset (offset + w.bytes)).reverse.length = w.bytes :=
      List.length_reverse.trans (Source.length_extract h)
    have hwhole : (d.extract offset (offset + w.bytes)).reverse.extract 0 (0 + w.bytes) =
        (d.extract offset (offset + w.bytes)).reverse := by
      rw [List.extract_eq_take_drop, List.drop_zero, Nat.zero_add, Nat.sub_zero]
      exact List.take_of_length_le hlength.le
    rw [extracted, extracted, hw]
    dsimp only
    rw [read_ofFile_of_le h, read_ofFile_of_le (by omega), hwhole]
    show Except.ok _ = Except.ok _
    have hsays : decide (m'.Says "signed" true) = decide (m.Says "signed" true) := by
      rw [decide_eq_decide, Register.Says, Register.Says, hsigned]
    rw [numberOfBytes_eq, numberOfBytes_eq, orderedBytes, orderedBytes, if_neg hbig,
      if_pos hlittle, hsays]
  · rw [extracted, extracted, ofBytes?_eq_none hwidth]

/--
**Extracts read exactly what they name.**  Let the offset and the size of an extract evaluate to
numbers that are not negative, and let the current file be a byte string.  Then the extract of
each format yields the number, the bytes or the text of its range, or fails if the range is not
in the file or not as wide as a number; and nothing else happens.  A number in little-endian
order is the one that the same bytes hold in the opposite order.
-/
theorem evaluateNode_extract_exact (env : Environment) (eval : Expr → Step Value) (o z : Expr)
    (a b : Number) (offset size : Nat) (m : Register) (s s₁ s₂ : Session) (name : String)
    (d : Bytes) (ho : eval o s = .ok (.number a) s₁) (hz : eval z s₁ = .ok (.number b) s₂)
    (ha : a.toInt = offset) (hb : b.toInt = size) (hsource : s₂.source = .ofFile name d) :
    ExtractsExactly d offset size m
      (fun format => (env.evaluateNode eval (.extract format o z m)).outcome s) ∧
    (∀ format, (env.evaluateNode eval (.extract format o z m)).after s = s₂) ∧
    ∀ (m' : Register) (s' : Session) (name' : String),
      s'.source = .ofFile name' (d.extract offset (offset + size)).reverse →
      offset + size ≤ d.length → m.Says "bigendian" false → ¬ m'.Says "bigendian" false →
      m'.get? "signed" = m.get? "signed" →
      (extract .number 0 size m').outcome s' =
        (env.evaluateNode eval (.extract .number o z m)).outcome s := by
  have hnode : ∀ format, env.evaluateNode eval (.extract format o z m) s =
      Step.ofExcept (extracted (.ofFile name d) offset size m format) s₂ := by
    intro format
    rw [evaluateNode_extract_of_ok ho hz ha hb, hsource]
  have houtcome : (fun format => (env.evaluateNode eval (.extract format o z m)).outcome s) =
      extracted (.ofFile name d) offset size m :=
    funext fun format => Step.outcome_ofExcept (hnode format)
  refine ⟨?_, fun format => Step.after_ofExcept (hnode format), ?_⟩
  · rw [houtcome]
    exact extractsExactly_ofFile name d offset size m
  · intro m' s' name' hsource' hrange hlittle hbig hsigned
    rw [Step.outcome_ofExcept (extract_eq .number s'), hsource',
      Step.outcome_ofExcept (hnode .number)]
    exact extracted_reverse hrange hlittle hbig hsigned

/-- A file of four bytes before anything was evaluated. -/
def fourBytes : Session := .start default (.ofFile "four" [1, 255, 0, 128]) ∅ none

/-- Literals as the offset and the size of an extract from four bytes. -/
theorem evaluateNode_extract_exact_fourBytes :
    let env : Environment := ⟨∅, ∅⟩
    let eval := env.evaluateWithin depthLimit 1
    eval (.number 1) fourBytes = .ok (.number (.literal 1)) fourBytes ∧
    eval (.number 2) fourBytes = .ok (.number (.literal 2)) fourBytes ∧
    (Number.literal 1).toInt = (1 : Nat) ∧ (Number.literal 2).toInt = (2 : Nat) ∧
    fourBytes.source = .ofFile "four" [1, 255, 0, 128] ∧
    ExtractsExactly [1, 255, 0, 128] 1 2 ∅
      (fun format =>
        (env.evaluateNode eval (.extract format (.number 1) (.number 2) ∅)).outcome fourBytes) ∧
    (env.evaluateNode eval (.extract .number (.number 1) (.number 2) ∅)).outcome fourBytes =
      .ok (.number (.ofNat 65280 .w16)) := by
  refine ⟨rfl, rfl, by decide, by decide, rfl, ?_, rfl⟩
  exact (evaluateNode_extract_exact ⟨∅, ∅⟩ _ (.number 1) (.number 2) (.literal 1)
    (.literal 2) 1 2 ∅ fourBytes fourBytes fourBytes "four" [1, 255, 0, 128] rfl rfl (by decide)
    (by decide) rfl).1

end Environment

end RuleScan
