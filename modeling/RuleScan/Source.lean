import RuleScan.Error

/-!
# Sources of bytes

A rule looks at one file through its source: a size, and a way to read a range of
bytes. A range that reaches beyond the size is refused before anything is read; a
range within the size can still fail when the bytes are not there.

## Main results

* `read_ofFile` — a file of which nothing is missing gives exactly the bytes asked for.
-/

namespace RuleScan

/-- Something that bytes can be read from at any position. -/
structure Source where
  size : Nat
  read : Nat → Nat → Except Error Bytes

namespace Source

instance : Inhabited Source := ⟨⟨0, fun _ _ => .ok []⟩⟩

/-- The bytes of a list from a position on, so many of them. -/
def piece (bytes : Bytes) (offset length : Nat) : Bytes := (bytes.drop offset).take length

/-- A named reader that claims a size but holds only the given bytes. -/
def claiming (name : String) (size : Nat) (bytes : Bytes) : Source where
  size := size
  read offset length :=
    if offset + length ≤ size then
      if (piece bytes offset length).length = length then .ok (piece bytes offset length)
      else .error (.fileRead name .endedEarly)
    else .error (.outOfRange (.readPast length offset size))

/-- A named file with all of its bytes. -/
def ofFile (name : String) (bytes : Bytes) : Source := claiming name bytes.length bytes

/-- The name of bytes that come from no file. -/
def memoryName : String := "<memory>"

/-- The bytes before the first zero byte, at most so many, at most to the end. -/
def readTerminated (s : Source) (offset limit : Nat) : Except Error Bytes := do
  if s.size < offset then .error (.outOfRange (.offsetPast offset s.size))
  else
    let bytes ← s.read offset (min limit (s.size - offset))
    pure (bytes.takeWhile (· ≠ 0))

theorem read_ofFile (name : String) (bytes : Bytes) (offset length : Nat) :
    (ofFile name bytes).read offset length =
      if offset + length ≤ bytes.length then .ok (piece bytes offset length)
      else .error (.outOfRange (.readPast length offset bytes.length)) := by
  simp only [ofFile, claiming]
  split
  · next h =>
    have : (piece bytes offset length).length = length := by
      simp only [piece, List.length_take, List.length_drop]
      omega
    simp [this]
  · rfl

end Source

end RuleScan
