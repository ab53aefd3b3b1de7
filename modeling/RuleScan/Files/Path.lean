import RuleScan.Text.Blank

/-!
# Paths

A path is a text with its names between slashes. Two paths count as the same when
they have the same components: doubled and trailing slashes and inner `.` do not
matter, a leading `.` and every `..` do. Operations that shorten or extend a path
work on its text, so a path is shown the way it was given.

## Main results

* `same_refl`, `same_symm`, `same_trans` — being the same path is an equivalence.
* `startsWith_refl` — a path lies inside itself.
-/

namespace RuleScan

/-- A path as text. -/
abbrev Path := String

namespace Path

/-- A part of a path. -/
inductive Component where
  | root
  | here
  | up
  | name (s : String)
  deriving DecidableEq, Repr

/-- The texts between the slashes of a path. -/
def segments (p : Path) : List String :=
  (Text.splitOn '/' p.toList).map String.ofList

/-- Whether a path starts at the root. -/
def isAbsolute (p : Path) : Bool := p.toList.head? == some '/'

/-- Whether a segment leaves the place where it stands. -/
def isIdle (s : String) : Bool := s.isEmpty || s == "."

/-- The component that a segment stands for. -/
def Component.ofSegment (s : String) : Component := if s == ".." then .up else .name s

/-- A path as the beginning that its components hang on and the segments after it. -/
structure Parts where
  head : List Component
  body : List String

/-- The beginning and the segments of a path. -/
def parts (p : Path) : Parts :=
  if p.isAbsolute then ⟨[.root], p.segments.drop 1⟩
  else if p.segments.head? == some "." then ⟨[.here], p.segments.drop 1⟩
  else ⟨[], p.segments⟩

/-- The components of a path. -/
def components (p : Path) : List Component :=
  p.parts.head ++ (p.parts.body.filter fun s => !isIdle s).map Component.ofSegment

/-- Whether two paths have the same components. -/
def same (p q : Path) : Bool := p.components == q.components

/-- Whether a path lies inside another, or is the same. -/
def startsWith (p base : Path) : Bool := base.components.isPrefixOf p.components

/-- A name inside a directory. -/
def join (base : Path) (name : String) : Path :=
  if name.toList.head? == some '/' then name
  else if base.isEmpty || base.toList.getLast? == some '/' then base ++ name
  else base ++ "/" ++ name

/-- The last component, if it is a name. -/
def fileName? (p : Path) : Option String :=
  match p.components.getLast? with
  | some (.name s) => some s
  | _ => none

/-- Segments without the idle ones at the end. -/
def trimEnd (segments : List String) : List String :=
  (segments.reverse.dropWhile isIdle).reverse

/-- The text of the segments behind the beginning of a path. -/
def render (head : List Component) (body : List String) : Path :=
  let text := String.intercalate "/" body
  match head with
  | .root :: _ => "/" ++ text
  | .here :: _ => if body.isEmpty then "." else "./" ++ text
  | _ => text

/-- The path without its last component; the root and the empty path have none. -/
def parent? (p : Path) : Option Path :=
  match trimEnd p.parts.body with
  | [] => if p.parts.head = [.here] then some "" else none
  | body => some (render p.parts.head (trimEnd body.dropLast))

/-- The text of a path, or of its last name if it has one. -/
def shortName (p : Path) : String := p.fileName?.getD p

theorem same_iff {p q : Path} : p.same q ↔ p.components = q.components := by
  simp [same]

theorem same_refl (p : Path) : p.same p := by simp [same]

theorem same_symm {p q : Path} (h : p.same q) : q.same p :=
  same_iff.2 (same_iff.1 h).symm

theorem same_trans {p q r : Path} (h : p.same q) (h' : q.same r) : p.same r :=
  same_iff.2 ((same_iff.1 h).trans (same_iff.1 h'))

theorem startsWith_refl (p : Path) : p.startsWith p := by simp [startsWith]

end Path

end RuleScan
