import RuleScan.Files.Basic

/-!
# Output directories

Actions write files into one flat directory. A suggested name is made harmless first:
only letters, digits, `.`, `_` and `-` survive, a leading `.` does not, and the length
is limited. Then a number is put before the extension until the name is free: neither
handed out before nor the name of anything that exists.

A name that was handed out is never handed out again, even if creating a file under it
fails.

A file that turns out to be a duplicate is replaced by a reference to the earlier file:
a link, or a note that names it where there are no links. The file is removed first, so
it is gone if the system then refuses to create the reference.

## Main results

* `length_sanitizeChars_le` — a name stays below the limit.
* `mem_taken_newName` — a name that is handed out is taken from then on.
-/

namespace RuleScan

namespace Output

/-- The longest name that is kept, before a number is added. -/
def nameLimit : Nat := 200

/-- Whether a character may stand in a name. -/
def isSafe (c : Char) : Bool := c.isAlphanum || c == '.' || c == '_' || c == '-'

/-- A name with every other character replaced, and with no `.` in front. -/
def sanitizeChars (cs : List Char) : List Char :=
  match (cs.map fun c => if isSafe c then c else '_').take nameLimit with
  | [] => "unnamed".toList
  | '.' :: rest => '_' :: rest
  | name => name

/-- A harmless name for a suggested one. -/
def sanitize (name : String) : String := String.ofList (sanitizeChars name.toList)

theorem length_sanitizeChars_le (cs : List Char) : (sanitizeChars cs).length ≤ nameLimit := by
  have h : ((cs.map fun c => if isSafe c then c else '_').take nameLimit).length ≤ nameLimit := by
    simp only [List.length_take]
    omega
  unfold sanitizeChars
  split
  · decide
  · next hrest => rw [hrest] at h; exact h
  · exact h

/-- The part of a name before its last `.`, and the part from there on. -/
def splitExtension (name : List Char) : List Char × List Char :=
  let after := (name.reverse.takeWhile (· ≠ '.')).reverse
  let before := name.take (name.length - after.length - 1)
  if before.isEmpty then (name, []) else (before, '.' :: after)

/-- A name with a number before its extension; zero stands for no number. -/
def numbered (name : String) (n : Nat) : String :=
  if n = 0 then name
  else
    let (stem, extension) := splitExtension name.toList
    String.ofList stem ++ "_" ++ toString n ++ String.ofList extension

end Output

/-- A directory for extracted files, and the paths handed out in it so far. -/
structure OutputDir where
  root : Path
  taken : List Path
  deriving Inhabited

namespace OutputDir

open Output

/-- Uses a directory, which is created if it is missing. -/
def open? (fs : FileSystem) (root : Path) : Except Error OutputDir × FileSystem :=
  match fs.ensureDirectory root with
  | (.ok (), fs) => (.ok ⟨root, []⟩, fs)
  | (.error cause, fs) => (.error (.directoryCreate root cause), fs)

/-- Whether a path lies inside the directory. -/
def contains (out : OutputDir) (p : Path) : Bool := p.startsWith out.root

/-- Whether a path can be handed out. -/
def isFree (out : OutputDir) (fs : FileSystem) (p : Path) : Bool :=
  !(out.taken.any fun q => q.same p) && !fs.exists? p

/-- The path for a name with a number. -/
def candidate (out : OutputDir) (name : String) (n : Nat) : Path :=
  out.root.join (numbered name n)

/--
The first free path for a name, from a number on. Every path that is not free is taken
or exists, so a budget of one more than there are such paths suffices.
-/
def firstFree (out : OutputDir) (fs : FileSystem) (name : String) : Nat → Nat → Path
  | 0, n => out.candidate name n
  | budget + 1, n =>
    if out.isFree fs (out.candidate name n) then out.candidate name n
    else firstFree out fs name budget (n + 1)

/-- Hands out a free path for a suggested name. -/
def newName (out : OutputDir) (fs : FileSystem) (suggestion : String) : Path × OutputDir :=
  let p := out.firstFree fs (sanitize suggestion) (out.taken.length + fs.nodes.size + 1) 0
  (p, { out with taken := p :: out.taken })

/-- Creates an empty file under a free path. -/
def create (out : OutputDir) (fs : FileSystem) (suggestion : String) :
    Except Error (Path × FileSystem) × OutputDir :=
  let (p, out) := out.newName fs suggestion
  match fs.createFile p with
  | .ok fs => (.ok (p, fs), out)
  | .error cause => (.error (.fileWrite p cause), out)

/-- Creates a directory under a free path. -/
def mkdir (out : OutputDir) (fs : FileSystem) (suggestion : String) :
    Except Error (Path × FileSystem) × OutputDir :=
  let (p, out) := out.newName fs suggestion
  match fs.createDirectory p with
  | .ok fs => (.ok (p, fs), out)
  | .error cause => (.error (.directoryCreate p cause), out)

end OutputDir

/-! ## References -/

/-- How a system refers from one file to another: whether it has links, and which references it
refuses to create, such as links on a medium that has none. -/
structure References where
  links : Bool
  refused : FileSystem → Path → Path → Option FileFault

namespace References

/-- Links that are never refused. -/
def plain : References := ⟨true, fun _ _ _ => none⟩

/-- The bytes of a note that names another file. -/
def note (target : Path) : Bytes := Utf8.encode s!"duplicate of {target}\n"

/-- Creates a reference where there is nothing yet. -/
def create (r : References) (fs : FileSystem) (p target : Path) : Except FileFault FileSystem :=
  match r.refused fs p target with
  | some cause => .error cause
  | none => if r.links then fs.createLink p target else fs.writeFile p (note target)

end References

namespace OutputDir

/-- Replaces a file of the directory by a reference to another file with the same content. -/
def replaceWithReference (out : OutputDir) (fs : FileSystem) (p earlier : Path)
    (references : References := .plain) : Except Error Unit × FileSystem :=
  if !out.contains p then
    (.error (.internal s!"'{p}' is not inside the output directory"), fs)
  else
    match fs.removeFile p with
    | .error cause => (.error (.fileWrite p cause), fs)
    | .ok fs =>
      let target := (fs.canonical earlier).toOption.getD earlier
      match references.create fs p target with
      | .error cause => (.error (.fileWrite p cause), fs)
      | .ok fs => (.ok (), fs)

theorem mem_taken_newName (out : OutputDir) (fs : FileSystem) (suggestion : String) :
    (out.newName fs suggestion).1 ∈ (out.newName fs suggestion).2.taken := by
  simp [newName]

end OutputDir

end RuleScan
