import RuleScan.Operator.Registry

/-!
# Built-in operators

Five operators are there from the start: `Len` measures a byte string, `Log` and
`Warn` emit messages, `Carve` copies ranges of the current file into new files and
`Write` writes bytes into a new file.

`Carve` looks at all its ranges before it creates anything. A range is copied in
chunks; when a chunk cannot be delivered, the file of that range is discarded and the
files of the ranges before it stay.

## Main results

* `adjacent_length` — positions delimit one range fewer than there are positions.
-/

namespace RuleScan.Builtin

/-- The text of arguments in a message, with spaces between them. -/
def render (args : List Value) : String :=
  String.intercalate " " (args.map Value.printPlain)

/-- The length of a byte string. -/
def len : Operator where
  signature := .fixed [.bytes]
  run _ args _ :=
    match args with
    | v :: _ => do
      let bytes ← Step.ofValue v.asBytes
      pure (.number (.ofNat bytes.length .w64))
    | [] => throw (.internal "missing argument")

/-- Records a message about the current file. -/
def log : Operator where
  signature := .withTrailing [] .any
  run _ args _ := do
    Step.log (render args)
    pure (.bool true)

/-- Records a warning about the current file. -/
def warn : Operator where
  signature := .withTrailing [] .any
  run _ args _ := do
    Step.warn (render args)
    pure (.bool true)

/-! ## Carving -/

/-- The most bytes copied at once. -/
def chunkSize : Nat := 64 * 1024

/-- The ranges between neighbouring positions. -/
def adjacent : List Nat → List (Nat × Nat)
  | a :: b :: rest => (a, b) :: adjacent (b :: rest)
  | _ => []

theorem adjacent_length (ps : List Nat) : (adjacent ps).length = ps.length - 1 := by
  fun_induction adjacent ps with
  | case1 a b rest ih => simp [ih]
  | case2 ps h =>
    match ps, h with
    | [], _ => rfl
    | [_], _ => rfl
    | a :: b :: rest, h => exact absurd rfl (h a b rest)

/-- The first range that is empty, reversed or beyond the end. -/
def badRange? (size : Nat) (ranges : List (Nat × Nat)) : Option (Nat × Nat) :=
  ranges.find? fun (a, b) => decide (b ≤ a) || decide (size < b)

/-- Reads the bytes of a range in chunks. -/
def readRange (start stop : Nat) : Step Bytes :=
  if start < stop then do
    let length := min (stop - start) chunkSize
    let chunk ← Step.read start length
    let rest ← readRange (start + length) stop
    pure (chunk ++ rest)
  else pure []
termination_by stop - start
decreasing_by
  simp only [chunkSize]
  omega

/-- Does something with a file just created, which is discarded if that fails. -/
def orDiscard (p : Path) (t : Step Unit) : Step Unit := do
  match ← t.attempt with
  | .ok () => pure ()
  | .error e =>
    Step.discard p
    throw e

/-- Copies ranges of the current file into new files, one after the other. -/
def carveRanges (name : String) : List (Nat × Nat) → Step Unit
  | [] => pure ()
  | (start, stop) :: rest => do
    let p ← Step.create name
    orDiscard p do
      let bytes ← readRange start stop
      Step.writeFile p bytes
    carveRanges name rest

/-- Copies the ranges between positions into new files and counts them. -/
def carve : Operator where
  signature := .withTrailing [.bytes, .number, .number] .number
  run _ args _ :=
    match args with
    | v :: rest => do
      let name ← Step.ofValue v.asBytes
      let positions ← Step.ofValue (rest.mapM Value.asOffset)
      let size ← Step.size
      match badRange? size (adjacent positions) with
      | some (a, b) => throw (.outOfRange (.badPiece a b size))
      | none =>
        carveRanges (Utf8.lossy name) (adjacent positions)
        pure (.number (.ofNat (positions.length - 1) .w64))
    | [] => throw (.internal "missing argument")

/-- Writes bytes into a new file and returns its path. -/
def write : Operator where
  signature := .fixed [.bytes, .bytes]
  run _ args _ :=
    match args with
    | v :: w :: _ => do
      let name ← Step.ofValue v.asBytes
      let bytes ← Step.ofValue w.asBytes
      let p ← Step.create (Utf8.lossy name)
      orDiscard p (Step.writeFile p bytes)
      pure (.text p)
    | _ => throw (.internal "missing argument")

end Builtin

namespace Registry

/-- The registry with the built-in operators. -/
def builtins : Registry :=
  ⟨Table.ofList [("Len", Builtin.len), ("Log", Builtin.log), ("Warn", Builtin.warn),
    ("Carve", Builtin.carve), ("Write", Builtin.write)]⟩

end Registry

end RuleScan
